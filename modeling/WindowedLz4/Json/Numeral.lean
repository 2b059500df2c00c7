/-
Numerals, and the counts among them.

A count is a numeral without sign, fraction or exponent that fits a 64-bit word.
Any other numeral is of the wrong kind, unless its magnitude exceeds every
double: such a numeral is not accepted as a number at all.
-/
import WindowedLz4.Json.Scan
import WindowedLz4.Limits
namespace WindowedLz4.Json

/-- The parts of a numeral, in digits. -/
structure Numeral where
  negative : Bool
  whole : List Char
  fraction : List Char
  /-- Whether the exponent is negative, and its digits. -/
  exponent : Option (Bool × List Char)
  deriving DecidableEq, Repr

/-- The number that decimal digits write. -/
def digitsValue (digits : List Char) : Nat :=
  digits.foldl (fun n c => 10 * n + (c.toNat - '0'.toNat)) 0

/-! ### Scanning -/

/-- The leading digits, of which there must be one, and the text after them. -/
def scanDigits (s : List Char) : Except Fault (List Char × List Char) :=
  match s.takeWhile Char.isDigit with
  | [] => .error (if s.isEmpty then .truncated else .illFormed)
  | digits => .ok (digits, s.dropWhile Char.isDigit)

theorem length_scanDigits_lt {s digits rest : List Char} (h : scanDigits s = .ok (digits, rest)) :
    rest.length < s.length := by
  have hlen := congrArg List.length (List.takeWhile_append_dropWhile (p := Char.isDigit) (l := s))
  rw [scanDigits] at h
  split at h
  · cases h
  · next hne =>
    cases h
    have := List.length_pos_iff.2 (fun h0 => hne h0)
    simp only [List.length_append] at hlen
    omega

/-- The whole part of a numeral: digits, of which the first is 0 only if it is the only one. -/
def scanWhole (s : List Char) : Except Fault (List Char × List Char) := do
  let (digits, rest) ← scanDigits s
  if digits.head? = some '0' ∧ digits.length ≠ 1 then .error .illFormed else .ok (digits, rest)

/-- The digits after a point, if there is a point. -/
def scanFraction : List Char → Except Fault (List Char × List Char)
  | '.' :: s => scanDigits s
  | s => .ok ([], s)

/-- Whether an exponent is negative, and the text after its sign, which may be missing. -/
def scanSign : List Char → Bool × List Char
  | '-' :: s => (true, s)
  | '+' :: s => (false, s)
  | s => (false, s)

theorem length_scanSign_le (s : List Char) : (scanSign s).2.length ≤ s.length := by
  unfold scanSign
  split <;> simp

/-- The exponent, if there is one: a letter, a sign, and digits. -/
def scanExponent : List Char → Except Fault (Option (Bool × List Char) × List Char)
  | [] => .ok (none, [])
  | c :: s =>
    if c = 'e' ∨ c = 'E' then do
      let (negative, s) := scanSign s
      let (digits, rest) ← scanDigits s
      return (some (negative, digits), rest)
    else .ok (none, c :: s)

/-- The numeral at the head of a text, and the text after it. -/
def scanNumeral (s : List Char) : Except Fault (Numeral × List Char) := do
  let (negative, s) := match s with
    | '-' :: s => (true, s)
    | s => (false, s)
  let (whole, s) ← scanWhole s
  let (fraction, s) ← scanFraction s
  let (exponent, s) ← scanExponent s
  return (⟨negative, whole, fraction, exponent⟩, s)

theorem length_scanWhole_lt {s digits rest : List Char} (h : scanWhole s = .ok (digits, rest)) :
    rest.length < s.length := by
  simp only [scanWhole, bind, Except.bind] at h
  split at h
  · cases h
  · next hd =>
    split at h
    · cases h
    · cases h
      exact length_scanDigits_lt hd

theorem length_scanFraction_le {s digits rest : List Char}
    (h : scanFraction s = .ok (digits, rest)) : rest.length ≤ s.length := by
  unfold scanFraction at h
  split at h
  · exact Nat.le_succ_of_le (Nat.le_of_lt (length_scanDigits_lt h))
  · cases h
    exact Nat.le_refl _

theorem length_scanExponent_le {s rest : List Char} {e : Option (Bool × List Char)}
    (h : scanExponent s = .ok (e, rest)) : rest.length ≤ s.length := by
  unfold scanExponent at h
  split at h
  · cases h
    exact Nat.le_refl _
  · next c s =>
    split at h
    · simp only [bind, Except.bind, pure, Except.pure] at h
      split at h
      · cases h
      · next hd =>
        cases h
        have h1 := length_scanDigits_lt hd
        have h2 := length_scanSign_le s
        simp only [List.length_cons]
        omega
    · cases h
      exact Nat.le_refl _

/-- A numeral takes up text. -/
theorem length_scanNumeral_lt {s rest : List Char} {n : Numeral}
    (h : scanNumeral s = .ok (n, rest)) : rest.length < s.length := by
  simp only [scanNumeral, bind, Except.bind, pure, Except.pure] at h
  repeat' split at h
  all_goals cases h
  all_goals
    have h1 := length_scanWhole_lt (by assumption)
    have h2 := length_scanFraction_le (by assumption)
    have h3 := length_scanExponent_le (by assumption)
    simp_all
    try omega

/-! ### Magnitude

The digits of a numeral are gathered as long as they fit a word.  Whole digits
that no longer fit raise the exponent, and digits of the fraction that no
longer fit are dropped.
-/

/-- The digits gathered so far, with the power of ten they are to be multiplied by. -/
structure Significand where
  value : Nat
  exponent : Int
  /-- A digit did not fit. -/
  full : Bool
  deriving Repr

namespace Significand

/-- One more digit, if it fits: `shift` is added to the exponent if it does, and `skip` if not. -/
def push (shift skip : Int) (m : Significand) (c : Char) : Significand :=
  let value := 10 * m.value + digitsValue [c]
  if m.full ∨ maxWord < value then { m with exponent := m.exponent + skip, full := true }
  else { m with value, exponent := m.exponent + shift }

/-- The significand of a numeral, its exponent left aside. -/
def ofDigits (whole fraction : List Char) : Significand :=
  let m := whole.foldl (push 0 1) ⟨0, 0, false⟩
  fraction.foldl (push (-1) 0) { m with full := false }

end Significand

/-- The largest power of ten that is a double. -/
def maxDoubleExponent : Nat := 308

/-- Whether a word, as a double, times a power of ten, as a double, is past every double. -/
def exceedsDouble (value : Nat) (exponent : Int) : Bool :=
  if value = 0 ∨ exponent < 0 then false
  else if maxDoubleExponent < exponent then true
  else (value.toUInt64.toFloat * Float.ofScientific 1 false exponent.toNat).isInf

namespace Numeral

/-- Whether the magnitude of the numeral is past every double. -/
def isOutOfRange (n : Numeral) : Bool :=
  let m := Significand.ofDigits n.whole n.fraction
  match n.exponent with
  | none => exceedsDouble m.value m.exponent
  | some (true, digits) => exceedsDouble m.value (m.exponent - digitsValue digits)
  | some (false, digits) => exceedsDouble m.value (m.exponent + digitsValue digits)

/-- The numeral as a count. -/
def count (n : Numeral) : Except Fault Nat :=
  if !n.negative && n.fraction.isEmpty && n.exponent.isNone && digitsValue n.whole ≤ maxWord then
    .ok (digitsValue n.whole)
  else if n.isOutOfRange then .error .illFormed
  else .error .mismatched

end Numeral

end WindowedLz4.Json
