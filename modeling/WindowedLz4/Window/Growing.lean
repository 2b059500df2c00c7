/-
The sending side's window.

The message in progress is appended behind the history, and committed as it
stands.  A rollover clears the buffer.
-/
import WindowedLz4.Window.Basic
namespace WindowedLz4

/-- A buffer of history up to `start` and of the pending message from there on. -/
structure Growing where
  /-- The size at which the window rolls over. -/
  dictionarySize : Nat
  /-- The size the buffer never exceeds. -/
  capacity : Nat
  buffer : Bytes
  start : Nat
  start_le : start ≤ buffer.size

namespace Growing

/-- The empty window of a configuration. -/
def ofConfig (config : WindowConfig) : Growing where
  dictionarySize := config.dictionarySize
  capacity := config.ringCapacity
  buffer := #[]
  start := 0
  start_le := Nat.le_refl 0

/-- The bytes before the pending message. -/
def history (w : Growing) : Bytes := w.buffer.extract 0 w.start

/-- The pending message. -/
def pending (w : Growing) : Bytes := w.buffer.extract w.start w.buffer.size

/-- The length of the pending message. -/
def pendingSize (w : Growing) : Nat := w.buffer.size - w.start

theorem size_pending (w : Growing) : w.pending.size = w.pendingSize := by
  simp [pending, pendingSize]

/-- The window with more bytes in its pending message. -/
def append (w : Growing) (bytes : Bytes) : Except Failure Growing :=
  if w.capacity < w.buffer.size + bytes.size then .error .ringOverflow
  else .ok { w with
    buffer := w.buffer ++ bytes
    start_le := by simp only [Array.size_append]; exact Nat.le_add_right_of_le w.start_le }

/-- Commits the pending message, which must be `len` bytes long. -/
def advance (w : Growing) (len : Nat) : Except Failure (Advance × Growing) :=
  if len ≠ w.pendingSize then .error .lengthMismatch
  else if w.dictionarySize ≤ w.buffer.size then
    .ok (.rolledOver w.buffer, { w with buffer := #[], start := 0, start_le := Nat.le_refl 0 })
  else .ok (.continued, { w with start := w.buffer.size, start_le := Nat.le_refl _ })

end Growing

end WindowedLz4
