/-
A codec that follows a script and keeps a log.

It makes a session's use of its codec visible, and lets a codec fail or
misbehave on demand.  Without a line in the script a call copies: the frame of
a message is the message.
-/
import WindowedLz4.Codec.Basic
namespace WindowedLz4

/-- One line of a script. -/
inductive Cue where
  /-- Copy the message to the frame or the frame to the message. -/
  | copy
  /-- Write these bytes, and report this length. -/
  | emit (bytes : Bytes) (reported : Nat)
  /-- Write nothing and fail. -/
  | fail (failure : Failure)
  deriving DecidableEq, Repr, Inhabited

/-- One call that a session made. -/
inductive CodecCall where
  /-- An encoder was given this window, with the message from `start` on. -/
  | encode (window : Bytes) (start : Nat)
  /-- A decoder was given a frame of this size and a region of a window of this size, which
  held `before` up to the region. -/
  | decode (frameSize windowSize start capacity : Nat) (before : Bytes)
  /-- A window was given up. -/
  | retire (window : Bytes)
  deriving DecidableEq, Repr, Inhabited

/-- The lines still to follow, and the calls so far (the latest first). -/
structure Scripted where
  script : List Cue
  calls : List CodecCall := []
  deriving DecidableEq, Repr, Inhabited

namespace Scripted

/-- The next line of the script, and the context after a call that takes it. -/
def next (c : Scripted) (call : CodecCall) : Cue × Scripted :=
  (c.script.headD .copy, ⟨c.script.tail, call :: c.calls⟩)

/-- Encodes as the script says. -/
def encode (c : Scripted) (window : Bytes) (start : Nat) (dst : Bytes) :
    Outcome Nat (Scripted × Bytes) :=
  let (cue, c) := c.next (.encode window start)
  match cue with
  | .copy => .done (window.size - start) (c, dst ++ window.extract start window.size)
  | .emit bytes reported => .done reported (c, dst ++ bytes)
  | .fail failure => .refused failure (c, dst)

/-- Decodes as the script says.  A frame that is copied must fit the region. -/
def decode {n : Nat} (c : Scripted) (frame : Bytes) (window : Vector UInt8 n)
    (start capacity : Nat) : Outcome Nat (Scripted × Vector UInt8 n) :=
  let (cue, c) := c.next
    (.decode frame.size n start capacity (window.toArray.extract 0 start))
  match cue with
  | .copy =>
    if capacity < frame.size then .refused .malformed (c, window)
    else .done frame.size (c, overwrite window start frame.toList)
  | .emit bytes reported => .done reported (c, overwrite window start bytes.toList)
  | .fail failure => .refused failure (c, window)

/-- Notes that a window was given up. -/
def retire (c : Scripted) (window : Bytes) : Scripted :=
  { c with calls := .retire window :: c.calls }

instance : Encoder Scripted where
  encode := encode
  retire := retire

instance : Decoder Scripted where
  decode := decode
  retire := retire

end Scripted

end WindowedLz4
