/-
What stands at the head of a block.

A reader takes a block head by head, and what it finds at a head depends on the bytes up
to the end of what it finds.  `readHead_eq_sequence` and `readHead_eq_tail` say once what
it must have read for each of its two good answers; nobody else opens the reader.

More bytes behind a block come into it in one place only.  A sequence stays the sequence
it is, with the new bytes behind it (`readHead_append_of_sequence`).  Literals that ended
the block are the last ones no longer: a copy has to follow them, or the block is faulty
(`readHead_append_of_tail`).
-/
import WindowedLz4.Block.Parser
namespace WindowedLz4

variable {bytes rest : List UInt8} {s : Sequence}

/-! ### What a reader did -/

private theorem splitExactly?_go_eq_some {α : Type} {first rest : List α} :
    ∀ {taken xs : List α} {n : Nat}, splitExactly?.go taken n xs = some (first, rest) →
      taken.reverse ++ xs = first ++ rest := by
  intro taken xs n
  fun_induction splitExactly?.go taken n xs with
  | case1 taken xs =>
      intro h
      simp only [Option.some.injEq, Prod.mk.injEq] at h
      rw [h.1, h.2]
  | case2 => simp
  | case3 taken n x xs ih =>
      intro h
      rw [← ih h]
      simp

/-- What was cut off and the rest are the list. -/
theorem splitExactly?_eq_some {α : Type} {xs first rest : List α} {n : Nat}
    (h : splitExactly? n xs = some (first, rest)) : xs = first ++ rest := by
  simpa using splitExactly?_go_eq_some h

/-- A copy is an offset in two bytes, which is not 0, and a length. -/
theorem readCopy_eq_sequence {literals : List UInt8} {nibble : Nat}
    (h : readCopy literals nibble bytes = .sequence s rest) :
    ∃ low high after n, bytes = low :: high :: after ∧
      readLength nibble after = some (n, rest) ∧ low.toNat + 256 * high.toNat ≠ 0 ∧
      s = ⟨literals, low.toNat + 256 * high.toNat, n + Sequence.minLength⟩ := by
  match bytes with
  | [] | [_] => simp [readCopy] at h
  | low :: high :: after =>
      simp only [readCopy] at h
      split at h
      · next n rest' hlength =>
        split at h
        · simp at h
        · next hoffset =>
          simp only [Head.sequence.injEq] at h
          obtain ⟨rfl, rfl⟩ := h
          exact ⟨low, high, after, n, rfl, hlength, hoffset, rfl⟩
      · simp at h

theorem readCopy_ne_tail (literals : List UInt8) (nibble : Nat) (bytes tail : List UInt8) :
    readCopy literals nibble bytes ≠ .tail tail := by
  match bytes with
  | [] | [_] => simp [readCopy]
  | low :: high :: bytes =>
      simp only [readCopy]
      split
      · split <;> exact Head.noConfusion
      · exact Head.noConfusion

/-- The literals of a sequence are cut off behind the token and its length code, and the copy is
read behind them. -/
theorem readHead_eq_sequence (h : readHead bytes = .sequence s rest) :
    ∃ token after count counted literals behind, bytes = token :: after ∧
      readLength (token.toNat / 16) after = some (count, counted) ∧
      splitExactly? count counted = some (literals, behind) ∧ behind ≠ [] ∧
      readCopy literals (token.toNat % 16) behind = .sequence s rest := by
  match bytes with
  | [] => simp [readHead] at h
  | token :: after =>
      simp only [readHead] at h
      split at h
      · simp at h
      · next count counted hlength =>
        split at h
        · simp at h
        · simp at h
        · next literals behind hbehind hsplit =>
          exact ⟨token, after, count, counted, literals, behind, rfl, hlength, hsplit, hbehind, h⟩

/-- The last literals are all that stands behind the token and its length code. -/
theorem readHead_eq_tail {tail : List UInt8} (h : readHead bytes = .tail tail) :
    ∃ token after count counted, bytes = token :: after ∧
      readLength (token.toNat / 16) after = some (count, counted) ∧
      splitExactly? count counted = some (tail, []) := by
  match bytes with
  | [] => simp [readHead] at h
  | token :: after =>
      simp only [readHead] at h
      split at h
      · simp at h
      · next count counted hlength =>
        split at h
        · simp at h
        · next hsplit =>
          rw [Head.tail.injEq] at h
          subst h
          exact ⟨token, after, count, counted, rfl, hlength, hsplit⟩
        · exact absurd h (readCopy_ne_tail _ _ _ _)

/-- Literals with anything behind them are followed by a copy. -/
theorem readHead_eq_readCopy {token : UInt8} {after counted literals behind : List UInt8}
    {count : Nat} (hlength : readLength (token.toNat / 16) after = some (count, counted))
    (hsplit : splitExactly? count counted = some (literals, behind)) (hbehind : behind ≠ []) :
    readHead (token :: after) = readCopy literals (token.toNat % 16) behind := by
  simp only [readHead, hlength, hsplit]

/-! ### More bytes behind a head -/

private theorem splitExactly?_go_append_of_eq {α : Type} {first rest : List α} (more : List α) :
    ∀ {taken xs : List α} {n : Nat}, splitExactly?.go taken n xs = some (first, rest) →
      splitExactly?.go taken n (xs ++ more) = some (first, rest ++ more) := by
  intro taken xs n
  fun_induction splitExactly?.go taken n xs with
  | case1 taken xs =>
      intro h
      simp only [Option.some.injEq, Prod.mk.injEq] at h
      rw [splitExactly?.go, h.1, h.2]
  | case2 => simp
  | case3 taken n x xs ih =>
      intro h
      rw [List.cons_append, splitExactly?.go]
      exact ih h

theorem splitExactly?_append_of_eq {α : Type} {xs first rest : List α} {n : Nat}
    (h : splitExactly? n xs = some (first, rest)) (more : List α) :
    splitExactly? n (xs ++ more) = some (first, rest ++ more) :=
  splitExactly?_go_append_of_eq more h

theorem readLengthCode_append_of_eq {sum n : Nat} (h : readLengthCode sum bytes = some (n, rest))
    (more : List UInt8) : readLengthCode sum (bytes ++ more) = some (n, rest ++ more) := by
  induction bytes generalizing sum with
  | nil => simp [readLengthCode] at h
  | cons b bytes ih =>
      rw [readLengthCode] at h
      rw [List.cons_append, readLengthCode]
      by_cases hb : b = 255
      · rw [if_pos hb] at h ⊢
        exact ih h
      · rw [if_neg hb] at h ⊢
        simp only [Option.some.injEq, Prod.mk.injEq] at h
        rw [h.1, h.2]

theorem readLength_append_of_eq {nibble n : Nat} (h : readLength nibble bytes = some (n, rest))
    (more : List UInt8) : readLength nibble (bytes ++ more) = some (n, rest ++ more) := by
  unfold readLength at h ⊢
  by_cases hfull : nibble = 15
  · rw [if_pos hfull] at h ⊢
    exact readLengthCode_append_of_eq h more
  · rw [if_neg hfull] at h ⊢
    simp only [Option.some.injEq, Prod.mk.injEq] at h
    rw [h.1, h.2]

private theorem readCopy_append_of_sequence {literals : List UInt8} {nibble : Nat}
    (h : readCopy literals nibble bytes = .sequence s rest) (more : List UInt8) :
    readCopy literals nibble (bytes ++ more) = .sequence s (rest ++ more) := by
  obtain ⟨low, high, after, n, rfl, hlength, hoffset, rfl⟩ := readCopy_eq_sequence h
  simp only [List.cons_append, readCopy, readLength_append_of_eq hlength more, if_neg hoffset]

/-- **A sequence stays what it is**, whatever stands behind it. -/
theorem readHead_append_of_sequence (h : readHead bytes = .sequence s rest) (more : List UInt8) :
    readHead (bytes ++ more) = .sequence s (rest ++ more) := by
  obtain ⟨token, after, count, counted, literals, behind, rfl, hlength, hsplit, hbehind, hcopy⟩ :=
    readHead_eq_sequence h
  rw [List.cons_append, readHead_eq_readCopy (readLength_append_of_eq hlength more)
    (splitExactly?_append_of_eq hsplit more) (by simp [hbehind])]
  exact readCopy_append_of_sequence hcopy more

/-- **Literals that were the last are followed by a copy**, or by what is none. -/
theorem readHead_append_of_tail {tail more : List UInt8} (h : readHead bytes = .tail tail)
    (hmore : more ≠ []) :
    readHead (bytes ++ more) = .fault ∨
      ∃ s rest, readHead (bytes ++ more) = .sequence s rest ∧ s.literals = tail ∧
        Sequence.minLength ≤ s.length := by
  obtain ⟨token, after, count, counted, rfl, hlength, hsplit⟩ := readHead_eq_tail h
  have hhead : readHead (token :: after ++ more) = readCopy tail (token.toNat % 16) more :=
    readHead_eq_readCopy (readLength_append_of_eq hlength more)
      (splitExactly?_append_of_eq hsplit more) hmore
  rw [hhead]
  cases hcopy : readCopy tail (token.toNat % 16) more with
  | fault => exact .inl rfl
  | tail literals => exact absurd hcopy (readCopy_ne_tail _ _ _ _)
  | sequence s rest =>
      obtain ⟨low, high, after, n, -, -, -, rfl⟩ := readCopy_eq_sequence hcopy
      exact .inr ⟨_, rest, rfl, rfl, Nat.le_add_left _ _⟩

/-! ### From head to head -/

namespace Reading

theorem continueFrom_sequence (before : List Sequence) (h : readHead bytes = .sequence s rest) :
    continueFrom before bytes = continueFrom (s :: before) rest := by
  rw [continueFrom]
  split
  · next h' =>
    rw [h, Head.sequence.injEq] at h'
    rw [h'.1, h'.2]
  · next h' => simp [h] at h'
  · next h' => simp [h] at h'

theorem continueFrom_tail {literals : List UInt8} (before : List Sequence)
    (h : readHead bytes = .tail literals) :
    continueFrom before bytes = ⟨before.reverse, some literals⟩ := by
  rw [continueFrom]
  split
  · next h' => simp [h] at h'
  · next h' =>
    rw [h, Head.tail.injEq] at h'
    rw [h']
  · next h' => simp [h] at h'

theorem continueFrom_fault (before : List Sequence) (h : readHead bytes = .fault) :
    continueFrom before bytes = ⟨before.reverse, none⟩ := by
  rw [continueFrom]
  split
  · next h' => simp [h] at h'
  · next h' => simp [h] at h'
  · rfl

end Reading

end WindowedLz4
