/-
What a block stands for.

A dictionary and the plaintext so far are one text: a copy reads the text some
bytes back, wherever the dictionary ends.  Decoding goes on until the block is
used up or a step cannot be taken, because the room is full or a copy reaches
back past the start of the text; the text written by then stays.
-/
import WindowedLz4.Block.Parser
namespace WindowedLz4

/-- The text followed by `count` more bytes, each the one `offset` bytes before it. -/
def copyBack (offset : Nat) : Nat → Bytes → Bytes
  | 0, text => text
  | count + 1, text => copyBack offset count (text.push (text.getD (text.size - offset) 0))

theorem size_copyBack (offset count : Nat) (text : Bytes) :
    (copyBack offset count text).size = text.size + count := by
  induction count generalizing text with
  | zero => rfl
  | succ count ih =>
    rw [copyBack, ih, Array.size_push]
    omega

/-- The text with the literals appended, if it stays within `limit` bytes; otherwise
the text as it is. -/
def appendWithin (limit : Nat) (text : Bytes) (literals : List UInt8) : Except Bytes Bytes :=
  if text.size + literals.length ≤ limit then .ok (text ++ literals) else .error text

/-- The text with a copy appended, if it stays within `limit` bytes and the copy does
not reach back past the start; otherwise the text as it is. -/
def copyWithin (limit : Nat) (text : Bytes) (offset length : Nat) : Except Bytes Bytes :=
  if text.size + length ≤ limit ∧ offset ≤ text.size then .ok (copyBack offset length text)
  else .error text

/-- The text after a sequence, or the text at which it got stuck. -/
def Sequence.expand (limit : Nat) (text : Bytes) (s : Sequence) : Except Bytes Bytes := do
  copyWithin limit (← appendWithin limit text s.literals) s.offset s.length

/-- The text after a block, or the text at which it got stuck. -/
def Reading.expand (limit : Nat) (text : Bytes) (r : Reading) : Except Bytes Bytes := do
  let text ← r.sequences.foldlM (Sequence.expand limit) text
  match r.tail with
  | some literals => appendWithin limit text literals
  | none => .error text

/-- The plaintext of `frame` with `dictionary` before it, in at most `room` bytes.  An error
carries the plaintext up to the step that could not be taken. -/
def expandFrame (dictionary : Bytes) (room : Nat) (frame : Bytes) : Except Bytes Bytes :=
  let plain (text : Bytes) := text.extract dictionary.size text.size
  match (Reading.ofBytes frame.toList).expand (dictionary.size + room) dictionary with
  | .ok text => .ok (plain text)
  | .error text => .error (plain text)

end WindowedLz4
