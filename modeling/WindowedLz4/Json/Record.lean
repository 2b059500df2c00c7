/-
Records of counts.

A record has a fixed list of names and a count for each.  It is written as an
object with its members in the order of the names and without blanks.  It is
read from an object with the names in any order, among members of any other
name, or from an array of the counts alone.
-/
import WindowedLz4.Json.Skip
namespace WindowedLz4.Json

/-! ### Writing -/

/-- A member as written. -/
def writeMember (name : String) (value : Nat) : List Char :=
  '"' :: name.toList ++ '"' :: ':' :: Nat.toDigits 10 value

/-- A record as written. -/
def writeRecord {n : Nat} (names : Vector String n) (values : Vector Nat n) : List Char :=
  let members := (names.zip values).toList.map fun (name, value) => writeMember name value
  '\x7b' :: (members.intersperse [',']).flatten ++ ['\x7d']

/-! ### Reading counts -/

/-- The count at the head of a text, and the text after it.  A value of another kind is read to
its end before it is refused, but an array or an object is refused at once. -/
def readCount (s : List Char) : Except Fault (Nat × List Char) :=
  match skipBlanks s with
  | [] => .error .truncated
  | c :: s =>
    if (Container.ofOpening? c).isSome then .error .mismatched
    else if c = '"' then do
      let _ ← readString s
      .error .mismatched
    else if c = '-' ∨ c.isDigit then do
      let (numeral, rest) ← scanNumeral (c :: s)
      return (← numeral.count, rest)
    else do
      let _ ← skipScalar (c :: s)
      .error .mismatched

theorem length_readCount_lt {s rest : List Char} {value : Nat}
    (h : readCount s = .ok (value, rest)) : rest.length < s.length := by
  have hs := length_skipBlanks_le s
  simp only [readCount, bind, Except.bind, pure, Except.pure] at h
  split at h
  · cases h
  · next hb =>
    rw [hb] at hs
    repeat' split at h
    all_goals cases h
    exact Nat.lt_of_lt_of_le (length_scanNumeral_lt (by assumption)) hs

/-! ### Reading records

The counts found so far are kept in slots, one for each name.
-/

/-- One member of an object, from its name on.  A name of the record that has its count
already is refused before its colon. -/
def readMember {n : Nat} (names : Vector String n) (slots : Vector (Option Nat) n) :
    List Char → Except Fault (Vector (Option Nat) n × List Char)
  | [] => .error .truncated
  | c :: s =>
    if c = '"' then do
      let (name, s) ← readString s
      match names.finIdxOf? (String.ofList name) with
      | none => return (slots, ← skipValue (← skipColon s))
      | some i =>
        if slots[i].isSome then .error .mismatched
        else do
          let (value, s) ← readCount (← skipColon s)
          return (slots.set i (some value), s)
    else .error .illFormed

theorem length_readMember_lt {n : Nat} {names : Vector String n}
    {slots slots' : Vector (Option Nat) n} {s rest : List Char}
    (h : readMember names slots s = .ok (slots', rest)) : rest.length < s.length := by
  cases s with
  | nil => cases h
  | cons c s =>
    simp only [readMember, bind, Except.bind, pure, Except.pure] at h
    split at h
    · split at h
      · cases h
      · next hname =>
        have h1 := length_readString_lt hname
        simp only [List.length_cons]
        split at h
        · split at h
          · cases h
          · next hcolon =>
            have h2 := length_skipColon_lt hcolon
            split at h
            · cases h
            · next hvalue =>
              have h3 := length_skipValue_le hvalue
              cases h
              omega
        · split at h
          · cases h
          · split at h
            · cases h
            · next hcolon =>
              have h2 := length_skipColon_lt hcolon
              split at h
              · cases h
              · next hvalue =>
                have h3 := length_readCount_lt hvalue
                cases h
                omega
    · cases h

/-- The members of an object up to its end, `first` if none was read yet. -/
def readMembers {n : Nat} (names : Vector String n) (slots : Vector (Option Nat) n)
    (first : Bool) (s : List Char) : Except Fault (Vector (Option Nat) n × List Char) :=
  match hs : skipBlanks s with
  | [] => .error .truncated
  | c :: rest =>
    have := hs ▸ length_skipBlanks_le s
    if c = '\x7d' then .ok (slots, rest)
    else if !first && c != ',' then .error .illFormed
    else
      let member := if first then c :: rest else skipBlanks rest
      have : member.length ≤ (c :: rest).length := by
        have := length_skipBlanks_le rest
        simp only [member]
        split
        · exact Nat.le_refl _
        · simpa using Nat.le_succ_of_le this
      match hm : readMember names slots member with
      | .error fault => .error fault
      | .ok (slots, rest) =>
        have := length_readMember_lt hm
        readMembers names slots false rest
termination_by s.length

/-- The elements of an array from the `i`-th on, up to its end. -/
def readElements {n : Nat} (slots : Vector (Option Nat) n) (i : Nat) (s : List Char) :
    Except Fault (Vector (Option Nat) n × List Char) :=
  match skipBlanks s with
  | [] => .error .truncated
  | c :: rest =>
    if h : i < n then
      if c = ']' then .error .mismatched
      else if i ≠ 0 ∧ c ≠ ',' then .error .illFormed
      else
        let element := if i = 0 then c :: rest else skipBlanks rest
        if element.head? = some ']' then .error .illFormed
        else do
          let (value, rest) ← readCount element
          readElements (slots.set i (some value)) (i + 1) rest
    else if c = ']' then .ok (slots, rest)
    else .error .illFormed
termination_by n - i

/-- The counts of slots that are all filled. -/
def filled {n : Nat} (slots : Vector (Option Nat) n) : Except Fault (Vector Nat n) :=
  if h : ∀ i : Fin n, slots[i].isSome then .ok (Vector.ofFn fun i => slots[i].get (h i))
  else .error .mismatched

/-- The counts of the record that a text holds, in the order of the names. -/
def readRecord {n : Nat} (names : Vector String n) (s : List Char) :
    Except Fault (Vector Nat n) := do
  let slots := Vector.replicate n none
  let (slots, rest) ← match skipBlanks s with
    | '\x7b' :: s => readMembers names slots true s
    | '[' :: s => readElements slots 0 s
    | s => do
      let _ ← readCount s
      .error .mismatched
  let values ← filled slots
  if (skipBlanks rest).isEmpty then return values else .error .illFormed

end WindowedLz4.Json
