/-
Single blocks, without a session.

Compression appends to a destination that grows.  Decompression writes into
room that the caller has set aside and never grows it: a block does not say how
much plaintext it stands for, so the caller's room is the bound.  Empty input
stands for empty output in both directions.
-/
import WindowedLz4.Block.Frame
import WindowedLz4.Block.Expand
namespace WindowedLz4

/-- Appends `src` as one block to `dst`, and tells the length of the block. -/
def compress (dst src : Bytes) : Outcome Nat Bytes :=
  if src.size = 0 then .done 0 dst
  else if maxInputSize < src.size then .refused (.sourceTooLarge src.size maxInputSize) dst
  else appendFrame #[] src dst

/-- The plaintext of a block, in at most `room` bytes. -/
def decompressInto (room : Nat) (src : Bytes) : Except Failure Bytes :=
  if src.size = 0 then .ok #[]
  else if room = 0 then .error (.capacity 0)
  else
    match expandFrame #[] room src with
    | .ok plain => .ok plain
    | .error _ => .error .malformed

/-- Appends the plaintext of a block to `dst`, which has `spare` bytes of room left, and tells
its length.  No more room is offered to the block than its length can need. -/
def decompress (dst : Bytes) (spare : Nat) (src : Bytes) : Outcome Nat Bytes :=
  if src.size = 0 then .done 0 dst
  else if spare = 0 then .refused (.capacity spare) dst
  else
    match decompressInto (min spare (maxPlainSize src.size)) src with
    | .ok plain => .done plain.size (dst ++ plain)
    | .error failure => .refused failure dst

end WindowedLz4
