/-
What is left of the windows that are gone.

A window that starts over retires its bytes into the history, which keeps the
last `limit` of all it was ever given.  The dictionary of a message is the
history followed by the window before the message, cut in the same way, so it
does not show where one window ended and the next began.

A window of `limit` bytes or more leaves nothing of the history before it, and
a message behind so much window, or behind no history, takes its dictionary
from the window alone.  Otherwise the two are joined in the scratch buffer.
-/
import WindowedLz4.Bytes
import WindowedLz4.Limits
namespace WindowedLz4

/-- The last bytes of the windows retired so far, at most `limit` of them. -/
structure History where
  limit : Nat
  tail : Bytes
  /-- Where the last dictionary that took from both sides was put together. -/
  scratch : Bytes := #[]
  deriving DecidableEq, Repr, Inhabited

namespace History

/-- An empty history that reaches as far back as a dictionary of this size, and no farther
than a match can. -/
def ofDictionarySize (dictionarySize : Nat) : History where
  limit := min dictionarySize maxDistance
  tail := #[]

/-- The history once a window is gone too. -/
def retire (h : History) (window : Bytes) : History :=
  if h.limit ≤ window.size then { h with tail := lastBytes h.limit window }
  else { h with tail := lastBytes (h.limit - window.size) h.tail ++ window }

/-- The dictionary of a message that stands after `before` in its window, and the history
with the scratch buffer as it is left. -/
def dictionary (h : History) (before : Bytes) : Bytes × History :=
  if h.tail.isEmpty || h.limit ≤ before.size then (lastBytes h.limit before, h)
  else
    let joined := lastBytes (h.limit - before.size) h.tail ++ before
    (joined, { h with scratch := joined })

/-- A dictionary never exceeds the limit. -/
theorem size_dictionary_le (h : History) (before : Bytes) :
    (h.dictionary before).1.size ≤ h.limit := by
  rw [dictionary]
  split
  · rw [size_lastBytes]
    omega
  · next hcut =>
    simp only [Bool.or_eq_true, decide_eq_true_eq, not_or] at hcut
    rw [Array.size_append, size_lastBytes]
    omega

end History

end WindowedLz4
