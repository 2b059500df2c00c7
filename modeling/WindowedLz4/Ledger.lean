/-
What a session has done so far.

A ledger counts the calls that succeeded and the bytes that went in and came
out of them.  For a compressor plaintext goes in and frames come out, for a
decompressor the other way round.  Ledgers add up, so several sessions can be
told in one.
-/
namespace WindowedLz4

/-- Calls, and the bytes that went in and came out. -/
structure Ledger where
  calls : Nat := 0
  sourceBytes : Nat := 0
  outputBytes : Nat := 0
  deriving DecidableEq, Repr, Inhabited

namespace Ledger

/-- The ledger with one more call. -/
def record (l : Ledger) (source output : Nat) : Ledger where
  calls := l.calls + 1
  sourceBytes := l.sourceBytes + source
  outputBytes := l.outputBytes + output

/-- The ledger of the calls of both. -/
def merge (l m : Ledger) : Ledger where
  calls := l.calls + m.calls
  sourceBytes := l.sourceBytes + m.sourceBytes
  outputBytes := l.outputBytes + m.outputBytes

instance : Add Ledger := ⟨merge⟩

/-- A recorded call adds the ledger of that call alone. -/
theorem record_eq_add (l : Ledger) (source output : Nat) :
    l.record source output = l + ⟨1, source, output⟩ := rfl

/-- Output bytes for each source byte; 0 as long as no source byte was counted. -/
def outputRatio (l : Ledger) : Float :=
  if l.sourceBytes = 0 then 0.0
  else l.outputBytes.toUInt64.toFloat / l.sourceBytes.toUInt64.toFloat

end Ledger

end WindowedLz4
