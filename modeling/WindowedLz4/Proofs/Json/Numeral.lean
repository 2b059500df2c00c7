/-
Numerals, scanned and counted.

A numeral has no closing character, so behind it stands text that it could not go on
with (`Ends`); then just the numeral is taken.  Its parts are those of the grammar, and
it is a count if all of them are empty but the whole digits, and these fit a word.

There is one way to write a count: digits that do not begin with 0 are those of their
value (`toDigits_digitsValue`).  So a count is known by its text (`Written.count_iff`).
-/
import WindowedLz4.Proofs.Json.Grammar
namespace WindowedLz4.Json

/-- No character that a numeral could go on with. -/
def Ends (s : List Char) : Prop :=
  ∀ c ∈ s.head?, c.isDigit = false ∧ c ∉ ['.', 'e', 'E']

theorem ends_nil : Ends [] := by
  intro c hc
  cases hc

/-- What may stand behind a value. -/
theorem ends_cons {c : Char} (h : c ∈ [' ', '\t', '\n', '\r', ',', ']', '\x7d']) (s : List Char) :
    Ends (c :: s) := by
  have hnot : ∀ c ∈ [' ', '\t', '\n', '\r', ',', ']', '\x7d'],
      c.isDigit = false ∧ c ∉ ['.', 'e', 'E'] := by
    simp
  intro c' hc
  obtain rfl : c = c' := Option.some.inj hc
  exact hnot c h

/-- Text behind blanks ends what the blanks end. -/
theorem Blank.ends_append {s : List Char} (h : Blank s) {t : List Char} (ht : Ends t) :
    Ends (s ++ t) := by
  cases s with
  | nil => exact ht
  | cons c s =>
      exact ends_cons (List.mem_append_left [',', ']', '\x7d'] (h c List.mem_cons_self)) _

/-! ### Scanning -/

variable {rest : List Char}

/-- Digits are taken up to the first character that is none. -/
theorem Digits.scanDigits_append {s : List Char} (h : Digits s)
    (hrest : ∀ c ∈ rest.head?, c.isDigit = false) : scanDigits (s ++ rest) = .ok (s, rest) := by
  have htake : rest.takeWhile Char.isDigit = [] := by
    cases rest with
    | nil => rfl
    | cons c rest => exact List.takeWhile_cons_of_neg (by simp [hrest c rfl])
  have hdrop : rest.dropWhile Char.isDigit = rest := by
    cases rest with
    | nil => rfl
    | cons c rest => exact List.dropWhile_cons_of_neg (by simp [hrest c rfl])
  rw [scanDigits, List.takeWhile_append_of_pos h.2, List.dropWhile_append_of_pos h.2, htake, hdrop,
    List.append_nil]
  obtain ⟨hne, -⟩ := h
  cases s with
  | nil => exact absurd rfl hne
  | cons c s => rfl

theorem WholeText.scanWhole_append {s : List Char} (h : WholeText s)
    (hrest : ∀ c ∈ rest.head?, c.isDigit = false) : scanWhole (s ++ rest) = .ok (s, rest) := by
  have hnot : ¬ (s.head? = some '0' ∧ s.length ≠ 1) := by
    rintro ⟨hzero, hlength⟩
    rw [h.2 hzero] at hlength
    exact hlength rfl
  rw [scanWhole, h.1.scanDigits_append hrest]
  exact if_neg hnot

theorem FractionText.scanFraction_append {fraction s : List Char} (h : FractionText fraction s)
    (hrest : ∀ c ∈ rest.head?, c.isDigit = false ∧ c ≠ '.') :
    scanFraction (s ++ rest) = .ok (fraction, rest) := by
  cases h with
  | absent =>
      cases rest with
      | nil => rfl
      | cons c rest =>
          have hpoint : c ≠ '.' := (hrest c rfl).2
          simp [scanFraction, hpoint]
  | point h => exact h.scanDigits_append fun c hc => (hrest c hc).1

/-- A sign is taken from before digits. -/
theorem Digits.scanSign_append {digits sign : List Char} {negative : Bool} (h : Digits digits)
    (hsign : sign ∈ if negative then [['-']] else [['+'], []]) :
    scanSign (sign ++ digits ++ rest) = (negative, digits ++ rest) := by
  obtain ⟨hne, hdigits⟩ := h
  cases negative with
  | true =>
      obtain rfl : sign = ['-'] := by simpa using hsign
      rfl
  | false =>
      obtain rfl | rfl : sign = ['+'] ∨ sign = [] := by simpa using hsign
      · rfl
      · cases digits with
        | nil => exact absurd rfl hne
        | cons c digits =>
            have hc := hdigits c List.mem_cons_self
            have hminus : c ≠ '-' := by rintro rfl; exact absurd hc (by decide)
            have hplus : c ≠ '+' := by rintro rfl; exact absurd hc (by decide)
            simp [scanSign, hminus, hplus]

theorem ExponentText.scanExponent_append {exponent : Option (Bool × List Char)} {s : List Char}
    (h : ExponentText exponent s) (hrest : Ends rest) :
    scanExponent (s ++ rest) = .ok (exponent, rest) := by
  cases h with
  | absent =>
      cases rest with
      | nil => rfl
      | cons c rest =>
          have hmark : ¬ (c = 'e' ∨ c = 'E') := by
            have := (hrest c rfl).2
            simp_all
          rw [List.nil_append, scanExponent, if_neg hmark]
  | @present mark negative sign digits hmark hsign h =>
      have hmarks : mark = 'e' ∨ mark = 'E' := by simpa using hmark
      simp only [List.cons_append]
      rw [scanExponent, if_pos hmarks, h.scanSign_append hsign]
      show (scanDigits (digits ++ rest) >>= _) = _
      rw [h.scanDigits_append fun c hc => (hrest c hc).1]
      rfl

/-- The exponent, or what ends the numeral, is no more of the fraction. -/
theorem ExponentText.head_append {exponent : Option (Bool × List Char)} {s : List Char}
    (h : ExponentText exponent s) (hrest : Ends rest) :
    ∀ c ∈ (s ++ rest).head?, c.isDigit = false ∧ c ≠ '.' := by
  cases h with
  | absent =>
      intro c hc
      obtain ⟨hdigit, hnot⟩ := hrest c hc
      exact ⟨hdigit, fun hpoint => hnot (by simp [hpoint])⟩
  | @present mark negative sign digits hmark hsign h =>
      have hmarks : ∀ c ∈ ['e', 'E'], c.isDigit = false ∧ c ≠ '.' := by simp
      intro c hc
      obtain rfl : mark = c := Option.some.inj hc
      exact hmarks mark hmark

/-- The fraction, or what follows it, is no more of the whole digits. -/
theorem FractionText.head_append {fraction s : List Char} (h : FractionText fraction s)
    (hrest : ∀ c ∈ rest.head?, c.isDigit = false ∧ c ≠ '.') :
    ∀ c ∈ (s ++ rest).head?, c.isDigit = false := by
  cases h with
  | absent => exact fun c hc => (hrest c hc).1
  | point h =>
      intro c hc
      obtain rfl : '.' = c := Option.some.inj hc
      rfl

theorem Digits.exists_cons {s : List Char} (h : Digits s) :
    ∃ c digits, s = c :: digits ∧ c.isDigit := by
  obtain ⟨hne, hdigits⟩ := h
  cases s with
  | nil => exact absurd rfl hne
  | cons c digits => exact ⟨c, digits, rfl, hdigits c List.mem_cons_self⟩

/-- **A numeral is taken with all its parts, and nothing behind it.** -/
theorem Written.scanNumeral_append {n : Numeral} {s : List Char} (h : Written n s)
    (hrest : Ends rest) : scanNumeral (s ++ rest) = .ok (n, rest) := by
  cases h with
  | @parts negative whole fraction pointed marked exponent hwhole hfraction hexponent =>
      have hmarked := hexponent.head_append hrest
      have hpointed := hfraction.head_append hmarked
      have hunsigned : (do
            let whole ← scanWhole (whole ++ (pointed ++ (marked ++ rest)))
            let fraction ← scanFraction whole.2
            let exponent ← scanExponent fraction.2
            return ((⟨negative, whole.1, fraction.1, exponent.1⟩ : Numeral), exponent.2))
          = .ok (⟨negative, whole, fraction, exponent⟩, rest) := by
        rw [hwhole.scanWhole_append hpointed]
        show (scanFraction _ >>= _) = _
        rw [hfraction.scanFraction_append hmarked]
        show (scanExponent _ >>= _) = _
        rw [hexponent.scanExponent_append hrest]
        rfl
      rw [List.append_assoc, List.append_assoc, List.append_assoc]
      cases negative with
      | true => exact hunsigned
      | false =>
          obtain ⟨c, digits, rfl, hc⟩ := hwhole.1.exists_cons
          have hminus : c ≠ '-' := by rintro rfl; exact absurd hc (by decide)
          rw [← hunsigned]
          simp [scanNumeral, hminus]

/-! ### Counts -/

/-- The digits of a number that has more digits than one are those of its tenth, and one more. -/
theorem toDigits_concat {n d : Nat} (hn : 0 < n) (hd : d < 10) :
    Nat.toDigits 10 (10 * n + d) = Nat.toDigits 10 n ++ [Nat.digitChar d] := by
  rw [← Nat.toDigits_append_toDigits (by decide) hn hd, Nat.toDigits_of_lt_base hd]

/-- A digit is the one of its value. -/
theorem digitChar_of_isDigit {c : Char} (h : c.isDigit) :
    c.toNat - '0'.toNat < 10 ∧ Nat.digitChar (c.toNat - '0'.toNat) = c := by
  obtain ⟨hlow, hhigh⟩ := Char.isDigit_iff_toNat.mp h
  have hzero : '0'.toNat = 48 := rfl
  have hnine : '9'.toNat = 57 := rfl
  refine ⟨by omega, Char.toNat_inj.mp ?_⟩
  rw [Nat.toNat_digitChar_of_lt_ten (by omega)]
  omega

theorem digitsValue_eq (digits : List Char) : digitsValue digits = Nat.ofDigitChars 10 digits 0 :=
  Nat.ofDigitChars_eq_foldl.symm

/-- Digits behind a number that is not 0 are the last ones of the number they lead to. -/
theorem toDigits_ofDigitChars {digits : List Char} (h : ∀ c ∈ digits, c.isDigit) :
    ∀ {n}, 0 < n →
      Nat.toDigits 10 (Nat.ofDigitChars 10 digits n) = Nat.toDigits 10 n ++ digits := by
  induction digits with
  | nil =>
      intro n _
      rw [Nat.ofDigitChars_nil, List.append_nil]
  | cons c digits ih =>
      intro n hn
      obtain ⟨hlt, hchar⟩ := digitChar_of_isDigit (h c List.mem_cons_self)
      rw [Nat.ofDigitChars_cons, ih (fun c hc => h c (List.mem_cons_of_mem _ hc)) (by omega),
        toDigits_concat hn hlt, hchar, List.append_assoc]
      rfl

/-- **Whole digits are the digits of their value**, so a number is written in one way. -/
theorem WholeText.toDigits_digitsValue {s : List Char} (h : WholeText s) :
    Nat.toDigits 10 (digitsValue s) = s := by
  obtain ⟨⟨hne, hdigits⟩, hzero⟩ := h
  cases s with
  | nil => exact absurd rfl hne
  | cons c digits =>
      obtain ⟨hlt, hchar⟩ := digitChar_of_isDigit (hdigits c List.mem_cons_self)
      rw [digitsValue_eq, Nat.ofDigitChars_cons, Nat.mul_zero, Nat.zero_add]
      rcases Nat.eq_zero_or_pos (c.toNat - '0'.toNat) with h0 | hpos
      · rw [h0] at hchar
        obtain ⟨rfl, rfl⟩ := List.cons.inj (hzero (congrArg some hchar.symm))
        rfl
      · rw [toDigits_ofDigitChars (fun c hc => hdigits c (List.mem_cons_of_mem _ hc)) hpos,
          Nat.toDigits_of_lt_base hlt, hchar]
        rfl

/-- Only 0 is written with a leading 0. -/
theorem eq_zero_of_head_toDigits (k : Nat) (h : (Nat.toDigits 10 k).head? = some '0') : k = 0 := by
  induction k using Nat.strongRecOn with
  | ind k ih =>
      rcases Nat.lt_or_ge k 10 with hlt | hge
      · rw [Nat.toDigits_of_lt_base hlt] at h
        exact Nat.digitChar_eq_zero.mp (Option.some.inj h)
      · have hne : Nat.toDigits 10 (k / 10) ≠ [] := Nat.toDigits_ne_nil
        rw [Nat.toDigits_of_base_le (by decide) hge, List.head?_append,
          List.head?_eq_some_head hne] at h
        have hzero := ih (k / 10) (by omega) ((List.head?_eq_some_head hne).trans h)
        omega

theorem wholeText_toDigits (k : Nat) : WholeText (Nat.toDigits 10 k) := by
  have hdigits : ∀ c ∈ Nat.toDigits 10 k, c.isDigit := fun _ hc =>
    Nat.isDigit_of_mem_toDigits (by decide) (by decide) hc
  refine ⟨⟨Nat.toDigits_ne_nil, hdigits⟩, fun hzero => ?_⟩
  rw [eq_zero_of_head_toDigits k hzero]
  rfl

theorem digitsValue_toDigits (k : Nat) : digitsValue (Nat.toDigits 10 k) = k := by
  rw [digitsValue_eq, Nat.ofDigitChars_ten_toDigits]

namespace Written

/-- The digits of a number are a numeral without sign, fraction and exponent. -/
theorem toDigits (k : Nat) : Written ⟨false, Nat.toDigits 10 k, [], none⟩ (Nat.toDigits 10 k) := by
  have h := @Written.parts false _ _ _ _ _ (wholeText_toDigits k) .absent .absent
  rwa [List.append_nil, List.append_nil] at h

/-- The text of a numeral tells its parts. -/
theorem unique {n m : Numeral} {s : List Char} (hn : Written n s) (hm : Written m s) : n = m := by
  have h := (hn.scanNumeral_append ends_nil).symm.trans (hm.scanNumeral_append ends_nil)
  exact (Prod.mk.inj (Except.ok.inj h)).1

/-- A numeral of digits alone is written with them. -/
theorem whole_eq {n : Numeral} {s : List Char} (h : Written n s) (hnegative : n.negative = false)
    (hfraction : n.fraction = []) (hexponent : n.exponent = none) :
    WholeText n.whole ∧ s = n.whole := by
  cases h with
  | parts hwhole hpointed hmarked =>
      obtain rfl := hnegative
      obtain rfl := hfraction
      obtain rfl := hexponent
      refine ⟨hwhole, ?_⟩
      cases hmarked
      cases hpointed with
      | absent => simp
      | point h => exact absurd rfl h.1

/-- **The texts of counts are the digits of words.** -/
theorem count_iff {n : Numeral} {s : List Char} (h : Written n s) (k : Nat) :
    n.count = .ok k ↔ s = Nat.toDigits 10 k ∧ k ≤ maxWord := by
  constructor
  · intro hcount
    unfold Numeral.count at hcount
    split at hcount
    · next hparts =>
      obtain rfl := Except.ok.inj hcount
      simp only [Bool.and_eq_true, Bool.not_eq_true', List.isEmpty_iff, Option.isNone_iff_eq_none,
        decide_eq_true_eq] at hparts
      obtain ⟨⟨⟨hnegative, hfraction⟩, hexponent⟩, hword⟩ := hparts
      obtain ⟨hwhole, hs⟩ := h.whole_eq hnegative hfraction hexponent
      rw [hwhole.toDigits_digitsValue]
      exact ⟨hs, hword⟩
    · split at hcount
      · cases hcount
      · cases hcount
  · rintro ⟨rfl, hword⟩
    rw [h.unique (toDigits k), Numeral.count]
    simp only [digitsValue_toDigits]
    exact if_pos (by simp [hword])

end Written

end WindowedLz4.Json
