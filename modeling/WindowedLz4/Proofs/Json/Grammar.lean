/-
The grammar of JSON text.

The readers of this library build no values.  They look for the counts of a record and
skip all else, so what they accept is told here of the text alone, and without them:
which texts are values (`Derives`), how a name is spelled (`Spelled`), and which texts
are those of an object, with the name and the value of each member at hand
(`ObjectText`).

A string is any run of characters and escapes, so that a value may hold one that no
character string answers to: half a character, escaped.  Such a string is no name.
-/
import WindowedLz4.Json.Record
namespace WindowedLz4.Json

/-- Nothing but the four characters that may stand between any two pieces. -/
def Blank (s : List Char) : Prop := ∀ c ∈ s, c ∈ [' ', '\t', '\n', '\r']

instance (s : List Char) : Decidable (Blank s) :=
  List.decidableBAll _ s

/-! ### Strings -/

/-- A hexadecimal digit and its value, in small or in capital letters. -/
def HexDigit (c : Char) (d : Nat) : Prop :=
  d < 16 ∧ (c = Nat.digitChar d ∨ c = (Nat.digitChar d).toUpper)

instance (c : Char) (d : Nat) : Decidable (HexDigit c d) :=
  inferInstanceAs (Decidable (_ ∧ _))

/-- What a backslash makes of the character after it. -/
def escapes : List (Char × Char) :=
  [('"', '"'), ('\\', '\\'), ('/', '/'), ('b', '\x08'), ('f', '\x0c'), ('n', '\n'), ('r', '\r'),
    ('t', '\t')]

/-- The text between the quotes of a string, with its units. -/
inductive Body : List StringUnit → List Char → Prop where
  | nil : Body [] []
  | plain {c : Char} {units : List StringUnit} {raw : List Char} (hcontrol : 0x20 ≤ c.toNat)
      (hquote : c ≠ '"') (hescape : c ≠ '\\') (h : Body units raw) :
      Body (.plain c :: units) (c :: raw)
  | short {c e : Char} {units : List StringUnit} {raw : List Char} (hc : (c, e) ∈ escapes)
      (h : Body units raw) : Body (.plain e :: units) ('\\' :: c :: raw)
  | number {a b c d : Char} {i j k l : Nat} {units : List StringUnit} {raw : List Char}
      (ha : HexDigit a i) (hb : HexDigit b j) (hc : HexDigit c k) (hd : HexDigit d l)
      (h : Body units raw) :
      Body (.escaped (((i * 16 + j) * 16 + k) * 16 + l) :: units)
        ('\\' :: 'u' :: a :: b :: c :: d :: raw)

/-- The characters that units stand for.  A character past the first 65536 is escaped as two
halves. -/
inductive Spells : List StringUnit → List Char → Prop where
  | nil : Spells [] []
  | plain {c : Char} {units : List StringUnit} {name : List Char} (h : Spells units name) :
      Spells (.plain c :: units) (c :: name)
  | escaped {n : Nat} {units : List StringUnit} {name : List Char}
      (hn : n < 0xD800 ∨ 0xDFFF < n) (h : Spells units name) :
      Spells (.escaped n :: units) (Char.ofNat n :: name)
  | halves {high low : Nat} {units : List StringUnit} {name : List Char} (hhigh : high < 0x400)
      (hlow : low < 0x400) (h : Spells units name) :
      Spells (.escaped (0xD800 + high) :: .escaped (0xDC00 + low) :: units)
        (Char.ofNat (0x10000 + high * 0x400 + low) :: name)

/-- Between quotes the text spells the name. -/
def Spelled (name raw : List Char) : Prop := ∃ units, Body units raw ∧ Spells units name

/-! ### Numerals -/

/-- One digit or more, and nothing else. -/
def Digits (s : List Char) : Prop := s ≠ [] ∧ ∀ c ∈ s, c.isDigit

/-- Digits that begin with 0 only if there is no other. -/
def WholeText (s : List Char) : Prop := Digits s ∧ (s.head? = some '0' → s = ['0'])

/-- A point and digits, or nothing. -/
inductive FractionText : List Char → List Char → Prop where
  | absent : FractionText [] []
  | point {digits : List Char} (h : Digits digits) : FractionText digits ('.' :: digits)

/-- A mark, perhaps a sign, and digits; or nothing. -/
inductive ExponentText : Option (Bool × List Char) → List Char → Prop where
  | absent : ExponentText none []
  | present {mark : Char} {negative : Bool} {sign digits : List Char} (hmark : mark ∈ ['e', 'E'])
      (hsign : sign ∈ if negative then [['-']] else [['+'], []]) (h : Digits digits) :
      ExponentText (some (negative, digits)) (mark :: sign ++ digits)

/-- The text of a numeral: a minus if it is negative, its whole digits, its fraction and its
exponent. -/
inductive Written : Numeral → List Char → Prop where
  | parts {negative : Bool} {whole fraction pointed marked : List Char}
      {exponent : Option (Bool × List Char)} (hwhole : WholeText whole)
      (hfraction : FractionText fraction pointed) (hexponent : ExponentText exponent marked) :
      Written ⟨negative, whole, fraction, exponent⟩
        ((if negative then ['-'] else []) ++ whole ++ pointed ++ marked)

/-! ### Values -/

/-- The character that opens a container. -/
def Container.opening : Container → Char
  | array => '['
  | object => '\x7b'

/-- The three words that are values. -/
def words : List (List Char) :=
  [['n', 'u', 'l', 'l'], ['t', 'r', 'u', 'e'], ['f', 'a', 'l', 's', 'e']]

/-- What a text can be. -/
inductive Category where
  /-- A value, from its first character to its last. -/
  | value
  /-- A value with blanks around it. -/
  | element
  /-- What stands inside a container that is not empty. -/
  | items (c : Container)
  deriving DecidableEq, Repr

/-- The texts of each category, to any depth. -/
inductive Derives : Category → List Char → Prop where
  | word {w : List Char} (h : w ∈ words) : Derives .value w
  | numeral {n : Numeral} {s : List Char} (h : Written n s) : Derives .value s
  | string {units : List StringUnit} {raw : List Char} (h : Body units raw) :
      Derives .value ('"' :: raw ++ ['"'])
  | empty (c : Container) {gap : List Char} (h : Blank gap) :
      Derives .value (c.opening :: gap ++ [c.closing])
  | filled {c : Container} {s : List Char} (h : Derives (.items c) s) :
      Derives .value (c.opening :: s ++ [c.closing])
  | element {before value after : List Char} (hbefore : Blank before) (hafter : Blank after)
      (h : Derives .value value) : Derives .element (before ++ value ++ after)
  | single {s : List Char} (h : Derives .element s) : Derives (.items .array) s
  | member {before raw gap s : List Char} {units : List StringUnit} (hbefore : Blank before)
      (hraw : Body units raw) (hgap : Blank gap) (h : Derives .element s) :
      Derives (.items .object) (before ++ '"' :: raw ++ '"' :: gap ++ ':' :: s)
  | more {c : Container} {s t : List Char} (hs : Derives (.items c) s) (ht : Derives (.items c) t) :
      Derives (.items c) (s ++ ',' :: t)

/-! ### Objects -/

/-- A member of an object: its name as it is spelled, its value, and the blanks around both. -/
structure Member where
  before : List Char := []
  raw : List Char
  gap : List Char := []
  lead : List Char := []
  value : List Char
  after : List Char := []
  name : List Char
  blank_before : Blank before := by decide
  blank_gap : Blank gap := by decide
  blank_lead : Blank lead := by decide
  blank_after : Blank after := by decide
  spelled : Spelled name raw
  derives : Derives .value value

/-- The text of a member. -/
def Member.text (m : Member) : List Char :=
  m.before ++ '"' :: m.raw ++ '"' :: m.gap ++ ':' :: (m.lead ++ m.value ++ m.after)

/-- Members with commas between them. -/
def membersText (members : List Member) : List Char :=
  ((members.map Member.text).intersperse [',']).flatten

/-- An object with blanks around it. -/
structure ObjectText where
  before : List Char := []
  gap : List Char := []
  members : List Member
  after : List Char := []
  blank_before : Blank before := by decide
  blank_gap : Blank gap := by decide
  blank_after : Blank after := by decide

/-- The text of an object.  The gap is there for an object without members. -/
def ObjectText.text (o : ObjectText) : List Char :=
  o.before ++ '\x7b' :: (o.gap ++ membersText o.members) ++ '\x7d' :: o.after

/-- The values of the members with a name, in their order. -/
def valuesOf (name : String) (members : List Member) : List (List Char) :=
  (members.filter fun m => String.ofList m.name = name).map Member.value

/-- The members have each name once, with its count for the value. -/
def Hold {n : Nat} (names : Vector String n) (values : Vector Nat n) (members : List Member) :
    Prop :=
  ∀ i : Fin n, valuesOf (names.get i) members = [Nat.toDigits 10 (values.get i)]

instance {n : Nat} (names : Vector String n) (values : Vector Nat n) (members : List Member) :
    Decidable (Hold names values members) :=
  Nat.decidableForallFin _

/-! ### Blanks -/

@[simp] theorem blank_nil : Blank [] := by
  intro c hc
  cases hc

theorem isBlank_iff (c : Char) : isBlank c ↔ c ∈ [' ', '\t', '\n', '\r'] := by
  simp only [isBlank, Bool.or_eq_true, beq_iff_eq, List.mem_cons, List.not_mem_nil, or_false]
  grind

/-- Blanks are passed over, whatever stands behind them. -/
theorem Blank.skipBlanks_append {s : List Char} (h : Blank s) (t : List Char) :
    skipBlanks (s ++ t) = skipBlanks t :=
  List.dropWhile_append_of_pos fun c hc => (isBlank_iff c).mpr (h c hc)

theorem skipBlanks_cons {c : Char} (h : isBlank c = false) (s : List Char) :
    skipBlanks (c :: s) = c :: s :=
  List.dropWhile_cons_of_neg (by simp [h])

end WindowedLz4.Json
