/-
How a call can end.

A failure is a cause with its numbers; the wording is in `Failure.message`
alone.  Only an internal failure is fatal: it says that a session's own
bookkeeping does not fit together, whatever the caller did.
-/
import WindowedLz4.Bytes
namespace WindowedLz4

/-- Why a call was refused. -/
inductive Failure where
  /-- The input is longer than one block can hold. -/
  | sourceTooLarge (len max : Nat)
  /-- The message would grow past the configured limit. -/
  | messageTooLarge (pending incoming max : Nat)
  /-- The destination has no room at all. -/
  | capacity (available : Nat)
  /-- The block does not decode, or not into the room that is there. -/
  | malformed
  /-- There is nothing to work on. -/
  | noData
  /-- The session contradicts itself. -/
  | internal (reason : String)
  deriving DecidableEq, Repr, Inhabited

namespace Failure

/-- The text of a failure. -/
def message : Failure → String
  | sourceTooLarge len max => s!"src is too large: {len} > {max}"
  | messageTooLarge pending incoming max =>
    s!"message too large: {pending} pending + {incoming} incoming > {max}"
  | capacity available => s!"dst is not large enough: {available} bytes available"
  | malformed => "dst is not large enough, or src data is malformed"
  | noData => "no data"
  | internal reason => s!"internal error: {reason}"

/-- A fatal failure leaves a session that must not be used again. -/
def isFatal : Failure → Bool
  | internal _ => true
  | _ => false

/-! ### The ways a session can contradict itself -/

/-- The window has no room for what is appended. -/
def ringOverflow : Failure := internal "ring buffer overflow"

/-- A message is committed with another length than it has. -/
def lengthMismatch : Failure := internal "committed length differs from pending message"

/-- An encoder is told of a message that starts past the end of the window. -/
def startBeyondWindow : Failure := internal "message start beyond window"

/-- A decoder is given a region that is not inside the window. -/
def regionBeyondWindow : Failure := internal "decode region beyond window"

/-- A decoded message does not lie inside the ring. -/
def messageBeyondRing : Failure := internal "message beyond ring buffer"

/-- The cursor would move past the end of the ring. -/
def cursorBeyondRing : Failure := internal "cursor beyond ring buffer"

/-- The cursor is not inside the dictionary. -/
def cursorOutsideDictionary : Failure := internal "cursor outside dictionary"

/-- An encoding is longer than any encoding can be. -/
def encoderRejected : Failure := internal "lz4 encoder rejected a worst-case sized output"

end Failure

/-- The end of a call: its verdict, and the values it worked on as it leaves them,
which it does when it fails too. -/
structure Outcome (α σ : Type) where
  /-- The answer, or why there is none. -/
  verdict : Except Failure α
  /-- The values the call worked on, afterwards. -/
  after : σ

namespace Outcome

variable {α σ τ : Type}

/-- The call succeeds. -/
def done (answer : α) (after : σ) : Outcome α σ := ⟨.ok answer, after⟩

/-- The call is refused. -/
def refused (failure : Failure) (after : σ) : Outcome α σ := ⟨.error failure, after⟩

/-- The same verdict, with another view of the values. -/
def mapAfter (f : σ → τ) (o : Outcome α σ) : Outcome α τ := ⟨o.verdict, f o.after⟩

end Outcome

end WindowedLz4
