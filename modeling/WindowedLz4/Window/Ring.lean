/-
The receiving side's window.

A message is decoded in place at the cursor and then committed.  A rollover
moves the cursor to 0 and leaves the bytes where they are; whatever stands from
the cursor on is stale and means nothing.
-/
import WindowedLz4.Window.Basic
namespace WindowedLz4

/-- A buffer of fixed size that holds history up to the cursor. -/
structure Ring (config : WindowConfig) where
  bytes : Vector UInt8 config.ringCapacity
  cursor : Nat

namespace Ring

variable {config : WindowConfig}

/-- The ring before anything was decoded: all zeros, with the cursor at 0. -/
def empty (config : WindowConfig) : Ring config :=
  ⟨Vector.replicate config.ringCapacity 0, 0⟩

/-- The bytes before the cursor. -/
def history (w : Ring config) : Bytes := w.bytes.toArray.extract 0 w.cursor

/-- The cursor is inside the dictionary. -/
def isConsistent (w : Ring config) : Bool := w.cursor < config.dictionarySize

/-- The room for one message at the cursor. -/
def messageCapacity (_ : Ring config) : Nat := config.maxMessageSize

/-- The ring with `bytes` written from position `pos` on. -/
def put (w : Ring config) (pos : Nat) (bytes : Bytes) : Ring config :=
  { w with bytes := overwrite w.bytes pos bytes.toList }

/-- The `len` bytes at the cursor. -/
def message (w : Ring config) (len : Nat) : Except Failure Bytes :=
  let stop := wordSum w.cursor len
  if w.cursor ≤ stop ∧ stop ≤ config.ringCapacity then .ok (w.bytes.toArray.extract w.cursor stop)
  else .error .messageBeyondRing

/-- Commits the `len` bytes at the cursor. -/
def advance (w : Ring config) (len : Nat) : Except Failure (Advance × Ring config) :=
  let stop := wordSum w.cursor len
  if config.ringCapacity < stop then .error .cursorBeyondRing
  else if config.dictionarySize ≤ stop then
    .ok (.rolledOver (w.bytes.toArray.extract 0 stop), { w with cursor := 0 })
  else .ok (.continued, { w with cursor := stop })

end Ring

end WindowedLz4
