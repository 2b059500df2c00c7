/-
The small pieces of JSON text: blanks, words and strings.

Text is read from left to right and the first problem decides.  A problem is one
of three: the text ends too early, it is not JSON, or it is JSON of the wrong
kind.
-/
namespace WindowedLz4.Json

/-- Why a text could not be read. -/
inductive Fault where
  /-- The text ends before its value does. -/
  | truncated
  /-- The text is not JSON. -/
  | illFormed
  /-- The text is JSON, but not what is asked for. -/
  | mismatched
  deriving DecidableEq, Repr, Inhabited

/-- The characters that may stand between any two pieces. -/
def isBlank (c : Char) : Bool :=
  c == ' ' || c == '\n' || c == '\t' || c == '\r'

/-- The text from its first character that is no blank. -/
def skipBlanks (s : List Char) : List Char :=
  s.dropWhile isBlank

theorem length_skipBlanks_le (s : List Char) : (skipBlanks s).length ≤ s.length :=
  (List.dropWhile_suffix isBlank).sublist.length_le

/-- The text after `word`. -/
def skipWord : (word s : List Char) → Except Fault (List Char)
  | [], s => .ok s
  | _ :: _, [] => .error .truncated
  | w :: word, c :: s => if c = w then skipWord word s else .error .illFormed

theorem length_skipWord_le {word s rest : List Char} (h : skipWord word s = .ok rest) :
    rest.length ≤ s.length := by
  fun_induction skipWord word s with
  | case1 => cases h; exact Nat.le_refl _
  | case2 => cases h
  | case3 word c s ih => exact Nat.le_succ_of_le (ih h)
  | case4 => cases h

/-! ### Strings

A string is scanned into units: characters, and the numbers of `\u` escapes.
Numbers that are halves of a character beyond the first 65536 are joined
afterwards, so that a reader who does not want the string need not join them.
-/

/-- A piece of a string. -/
inductive StringUnit where
  /-- A character, written as itself or by a short escape. -/
  | plain (c : Char)
  /-- The number of a `\u` escape. -/
  | escaped (n : Nat)
  deriving DecidableEq, Repr

/-- The value of a hexadecimal digit. -/
def hexDigit? (c : Char) : Option Nat :=
  if '0' ≤ c ∧ c ≤ '9' then some (c.toNat - '0'.toNat)
  else if 'a' ≤ c ∧ c ≤ 'f' then some (c.toNat - 'a'.toNat + 10)
  else if 'A' ≤ c ∧ c ≤ 'F' then some (c.toNat - 'A'.toNat + 10)
  else none

/-- The number that four hexadecimal digits write. -/
def hexNumber? (a b c d : Char) : Option Nat := do
  return (((← hexDigit? a) * 16 + (← hexDigit? b)) * 16 + (← hexDigit? c)) * 16 + (← hexDigit? d)

/-- The character that a backslash and this one stand for. -/
def shortEscape? : Char → Option Char
  | '"' => some '"'
  | '\\' => some '\\'
  | '/' => some '/'
  | 'b' => some '\x08'
  | 'f' => some '\x0c'
  | 'n' => some '\n'
  | 'r' => some '\r'
  | 't' => some '\t'
  | _ => none

/-- Four digits are too few when not even four bytes of text are left. -/
def hexFault (s : List Char) : Fault :=
  if (String.ofList s).utf8ByteSize < 4 then .truncated else .illFormed

/-- The units of a string up to its end or its first fault, and the text after it if it
has no fault. -/
structure StringScan where
  units : List StringUnit
  rest : Except Fault (List Char)

/-- Scans a string from after its opening quote, behind the units in `before` (the latest
first). -/
def scanUnits (before : List StringUnit) : List Char → StringScan
  | [] => ⟨before.reverse, .error .truncated⟩
  | '"' :: s => ⟨before.reverse, .ok s⟩
  | ['\\'] => ⟨before.reverse, .error .truncated⟩
  | '\\' :: 'u' :: a :: b :: c :: d :: s =>
    match hexNumber? a b c d with
    | some n => scanUnits (.escaped n :: before) s
    | none => ⟨before.reverse, .error (hexFault (a :: b :: c :: d :: s))⟩
  | '\\' :: 'u' :: s => ⟨before.reverse, .error (hexFault s)⟩
  | '\\' :: c :: s =>
    match shortEscape? c with
    | some e => scanUnits (.plain e :: before) s
    | none => ⟨before.reverse, .error .illFormed⟩
  | c :: s =>
    if c.toNat < 0x20 then ⟨before.reverse, .error .illFormed⟩
    else scanUnits (.plain c :: before) s

/-- Scans a string from after its opening quote. -/
def scanString (s : List Char) : StringScan :=
  scanUnits [] s

private theorem length_scanUnits_lt {before : List StringUnit} {s rest : List Char}
    (h : (scanUnits before s).rest = .ok rest) : rest.length < s.length := by
  fun_induction scanUnits before s <;> simp_all <;> omega

/-- The text after a string is shorter than the text from after its opening quote. -/
theorem length_scanString_lt {s rest : List Char} (h : (scanString s).rest = .ok rest) :
    rest.length < s.length :=
  length_scanUnits_lt h

/-- Whether an escaped number is the first half of a character. -/
def isLeading (n : Nat) : Bool := 0xD800 ≤ n && n ≤ 0xDBFF

/-- Whether an escaped number is the second half of a character. -/
def isTrailing (n : Nat) : Bool := 0xDC00 ≤ n && n ≤ 0xDFFF

/-- The characters of scanned units, behind those in `before` (the latest first); or the fault
of a half character, for which `atEnd` is the fault if the units end with it. -/
def joinUnits (atEnd : Fault) (before : List Char) : List StringUnit → Except Fault (List Char)
  | [] => .ok before.reverse
  | .plain c :: units => joinUnits atEnd (c :: before) units
  | .escaped n :: units =>
    if isTrailing n then .error .illFormed
    else if isLeading n then
      match units with
      | .escaped m :: units =>
        if isTrailing m then
          joinUnits atEnd
            (Char.ofNat ((n - 0xD800) * 0x400 + (m - 0xDC00) + 0x10000) :: before) units
        else .error .illFormed
      | .plain _ :: _ => .error .illFormed
      | [] => .error atEnd
    else joinUnits atEnd (Char.ofNat n :: before) units

/-- The characters of a scanned string and the text after it. -/
def StringScan.text (scan : StringScan) : Except Fault (List Char × List Char) := do
  let atEnd := match scan.rest with
    | .ok _ => .illFormed
    | .error fault => fault
  let text ← joinUnits atEnd [] scan.units
  return (text, ← scan.rest)

/-- The characters of a string and the text after it, read from after its opening quote. -/
def readString (s : List Char) : Except Fault (List Char × List Char) :=
  (scanString s).text

theorem length_readString_lt {s text rest : List Char} (h : readString s = .ok (text, rest)) :
    rest.length < s.length := by
  apply length_scanString_lt
  simp only [readString, StringScan.text, bind, Except.bind, pure, Except.pure] at h
  split at h
  · cases h
  · split at h
    · cases h
    · cases h
      assumption

end WindowedLz4.Json
