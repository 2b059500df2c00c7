/-
Positions of a ring, in words.

The cursor and a length are words, and so is their sum.  `exactMessage` and
`exactAdvance` say what a ring does with the sum of the numbers, and the question is
when that is what it does with the sum of the words.

The cursor of a ring is a position in its dictionary, whatever was done with the ring
(`Within`).  So a sum that no word can hold falls short of the cursor once it is cut to
a word.  Reading a message asks that its end lies behind its start, and is refused then
as it must be: `message_eq_exactMessage` holds of every length.  An advance asks only
that the end lies inside the ring.  It is exact for the lengths that lead to a position
a word can hold, and for no other (`advance_eq_exactAdvance`, `advance_of_wraps`): past
them the cursor moves backwards, and nothing is given up or refused.
-/
import WindowedLz4.Proofs.Window
namespace WindowedLz4

/-- A sum past every word falls short of its first part by what the second lacks. -/
theorem wordSum_of_wraps {a b : Nat} (ha : a ≤ maxWord) (hb : b ≤ maxWord) (h : maxWord < a + b) :
    wordSum a b = a + b - UInt64.size := by
  simp only [wordSum, maxWord, UInt64.size] at *
  omega

namespace Ring

variable {config : WindowConfig}

/-! ### Exact sums -/

/-- The `len` bytes at the cursor, if they lie inside the ring. -/
def exactMessage (w : Ring config) (len : Nat) : Except Failure Bytes :=
  if w.cursor + len ≤ config.ringCapacity then .ok (w.ahead len) else .error .messageBeyondRing

/-- The ring with its cursor moved by `len`, or back at 0 once that completes the dictionary. -/
def exactAdvance (w : Ring config) (len : Nat) : Except Failure (Advance × Ring config) :=
  if config.ringCapacity < w.cursor + len then .error .cursorBeyondRing
  else if config.dictionarySize ≤ w.cursor + len then
    .ok (.rolledOver (w.bytes.toArray.extract 0 (w.cursor + len)), { w with cursor := 0 })
  else .ok (.continued, { w with cursor := w.cursor + len })

/-! ### What can be done with a ring -/

/-- Bytes are written somewhere, or the cursor is advanced. -/
inductive Use where
  | put (pos : Nat) (bytes : Bytes)
  | advance (len : Nat)
  deriving DecidableEq, Repr, Inhabited

/-- The ring after one use of it.  An advance that is refused leaves it as it is. -/
def use (w : Ring config) : Use → Ring config
  | .put pos bytes => w.put pos bytes
  | .advance len =>
    match w.advance len with
    | .ok (_, w') => w'
    | .error _ => w

/-- The ring after some uses of it. -/
def run (w : Ring config) (uses : List Use) : Ring config :=
  uses.foldl use w

/-- The cursor is a position in the ring, and one in the dictionary if it has moved. -/
structure Within (w : Ring config) : Prop where
  cursor_le : w.cursor ≤ config.ringCapacity
  cursor_lt : 0 < w.cursor → w.cursor < config.dictionarySize

theorem empty_within (config : WindowConfig) : (empty config).Within :=
  ⟨Nat.zero_le _, fun h => absurd h (Nat.lt_irrefl 0)⟩

variable {w : Ring config}

/-- An advance leads to a position in the dictionary, whatever was added to the cursor. -/
theorem Within.advance {len : Nat} {advance : Advance} {w' : Ring config}
    (h : w.advance len = .ok (advance, w')) : w'.Within := by
  simp only [Ring.advance] at h
  split at h
  · simp at h
  · next hinside =>
    split at h
    · simp only [Except.ok.injEq, Prod.mk.injEq] at h
      rw [← h.2]
      exact ⟨Nat.zero_le _, fun hpos => absurd hpos (Nat.lt_irrefl 0)⟩
    · next hshort =>
      simp only [Except.ok.injEq, Prod.mk.injEq] at h
      rw [← h.2]
      exact ⟨Nat.le_of_not_lt hinside, fun _ => Nat.lt_of_not_le hshort⟩

theorem Within.use (h : w.Within) (u : Use) : (w.use u).Within := by
  cases u with
  | put pos bytes => exact ⟨h.cursor_le, h.cursor_lt⟩
  | advance len =>
      cases hadvance : w.advance len with
      | error failure =>
          rw [Ring.use, hadvance]
          exact h
      | ok next =>
          rw [Ring.use, hadvance]
          exact Within.advance hadvance

theorem Within.run (uses : List Use) : ∀ {w : Ring config}, w.Within → (w.run uses).Within := by
  induction uses with
  | nil => intro w h; exact h
  | cons u rest ih => intro w h; exact ih (h.use u)

/-! ### Words -/

theorem ringCapacity_le_maxWord (config : WindowConfig) : config.ringCapacity ≤ maxWord :=
  Nat.min_le_right _ _

/-- A capacity is a word. -/
theorem ringCapacity_lt_size (config : WindowConfig) : config.ringCapacity < UInt64.size :=
  Nat.lt_of_le_of_lt (ringCapacity_le_maxWord config) (by decide)

variable {len : Nat}

/-- **A message is read exactly if it lies inside the ring**, for lengths of any size. -/
theorem Within.message_eq_exactMessage (h : w.Within) (hlen : len ≤ maxWord) :
    w.message len = w.exactMessage len := by
  unfold exactMessage
  split
  · next hfit => exact message_eq (ringCapacity_lt_size config) hfit
  · next hlong =>
    have hcursor := h.cursor_le
    exact message_eq_error (ringCapacity_lt_size config) hcursor hlen (by omega)

/-- An advance to a position that a word can hold is exact. -/
theorem advance_eq_exactAdvance (h : w.cursor + len ≤ maxWord) :
    w.advance len = w.exactAdvance len := by
  have hstop : wordSum w.cursor len = w.cursor + len :=
    wordSum_eq_add (Nat.lt_of_le_of_lt h (by decide))
  unfold advance exactAdvance
  simp only [hstop]

/-- **Past every word the cursor moves backwards**, and nothing is given up or refused. -/
theorem Within.advance_of_wraps (h : w.Within) (hlen : len ≤ maxWord)
    (hwraps : maxWord < w.cursor + len) :
    w.advance len = .ok (.continued, { w with cursor := w.cursor + len - UInt64.size }) ∧
      w.cursor + len - UInt64.size < w.cursor := by
  have hcapacity := ringCapacity_le_maxWord config
  have hcursor := h.cursor_le
  have hword : maxWord + 1 = UInt64.size := rfl
  have hback : w.cursor + len - UInt64.size < w.cursor := by omega
  have hdictionary := h.cursor_lt (by omega)
  have hstop := wordSum_of_wraps (Nat.le_trans hcursor hcapacity) hlen hwraps
  refine ⟨?_, hback⟩
  unfold Ring.advance
  simp only [hstop]
  rw [if_neg (by omega), if_neg (by omega)]

/-- A rollover gives up the bytes up to the end of the message. -/
theorem size_of_rolledOver (h : w.cursor + len ≤ maxWord) {retired : Bytes} {w' : Ring config}
    (hadvance : w.advance len = .ok (.rolledOver retired, w')) : retired.size = w.cursor + len := by
  rw [advance_eq_exactAdvance h, exactAdvance] at hadvance
  split at hadvance
  · simp at hadvance
  · next hinside =>
    split at hadvance
    · simp only [Except.ok.injEq, Prod.mk.injEq, Advance.rolledOver.injEq] at hadvance
      rw [← hadvance.1, Array.size_extract, Vector.size_toArray]
      omega
    · simp at hadvance

/--
**The window arithmetic is exact as long as a word can hold the end of the message.**

Whatever was written to a ring and wherever it was advanced to, reading a message is exact
for every length: it is refused exactly if its end is past the ring.  An advance is exact
if and only if a word can hold where it leads.  Where none can, it should be refused, and
instead moves the cursor backwards by what the length lacks to all words.  A rollover gives
up exactly as many bytes as there are to the end of the message.
-/
theorem advance_exact_iff (config : WindowConfig) (uses : List Use) {len : Nat}
    (hlen : len ≤ maxWord) :
    let w := (empty config).run uses
    w.message len = w.exactMessage len ∧
    (w.advance len = w.exactAdvance len ↔ w.cursor + len ≤ maxWord) ∧
    (maxWord < w.cursor + len →
      w.exactAdvance len = .error .cursorBeyondRing ∧
      w.advance len = .ok (.continued, { w with cursor := w.cursor + len - UInt64.size }) ∧
      w.cursor + len - UInt64.size < w.cursor) ∧
    ∀ retired w', w.advance len = .ok (.rolledOver retired, w') →
      retired.size = w.cursor + len := by
  intro w
  have hwithin : w.Within := (empty_within config).run uses
  have hrefused : maxWord < w.cursor + len → w.exactAdvance len = .error .cursorBeyondRing :=
    fun hwraps => if_pos (Nat.lt_of_le_of_lt (ringCapacity_le_maxWord config) hwraps)
  refine ⟨hwithin.message_eq_exactMessage hlen, ⟨fun hexact => ?_, advance_eq_exactAdvance⟩,
    fun hwraps => ⟨hrefused hwraps, hwithin.advance_of_wraps hlen hwraps⟩,
    fun retired w' hadvance => ?_⟩
  · rcases Nat.lt_or_ge maxWord (w.cursor + len) with hwraps | hword
    · rw [hrefused hwraps, (hwithin.advance_of_wraps hlen hwraps).1] at hexact
      simp at hexact
    · exact hword
  · rcases Nat.lt_or_ge maxWord (w.cursor + len) with hwraps | hword
    · rw [(hwithin.advance_of_wraps hlen hwraps).1] at hadvance
      simp at hadvance
    · exact size_of_rolledOver hword hadvance

/-- Behind seven bytes of a ring of fourteen, an advance by three is a rollover of ten bytes, and
the longest length of all is refused for a message. -/
theorem advance_exact_iff_seven :
    let w := (empty ⟨10, 4⟩).run [.put 3 #[1, 2], .advance 7]
    (3 ≤ maxWord ∧ maxWord ≤ maxWord) ∧
    w.advance 3 = .ok (.rolledOver #[0, 0, 0, 1, 2, 0, 0, 0, 0, 0], { w with cursor := 0 }) ∧
    w.message maxWord = .error .messageBeyondRing := by
  intro w
  have hthree : 3 ≤ maxWord := by decide
  obtain ⟨-, hadvance, -⟩ := advance_exact_iff ⟨10, 4⟩ [.put 3 #[1, 2], .advance 7] hthree
  obtain ⟨hmessage, -⟩ :=
    advance_exact_iff ⟨10, 4⟩ [.put 3 #[1, 2], .advance 7] (Nat.le_refl maxWord)
  exact ⟨⟨hthree, Nat.le_refl maxWord⟩, (hadvance.mpr (by decide)).trans rfl,
    hmessage.trans (if_neg (by decide))⟩

/-- There the longest length of all moves the cursor from 7 to 6, though 14 bytes have no room
for it. -/
theorem advance_past_word :
    let w := (empty ⟨10, 4⟩).run [.advance 7]
    w.cursor = 7 ∧ w.exactAdvance maxWord = .error .cursorBeyondRing ∧
      w.advance maxWord = .ok (.continued, { w with cursor := 6 }) := by
  intro w
  have hstop : wordSum w.cursor maxWord = 6 := by decide
  refine ⟨rfl, if_pos (by decide), ?_⟩
  rw [advance, hstop]
  rfl

end Ring

end WindowedLz4
