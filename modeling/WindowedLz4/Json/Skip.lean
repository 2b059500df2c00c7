/-
Values that nobody asks for.

Such a value is read only to find its end.  The arrays and objects that are
open at a place in the text are kept in a list, so nesting of any depth is read
in one pass.
-/
import WindowedLz4.Json.Numeral
namespace WindowedLz4.Json

/-- The text after a colon. -/
def skipColon (s : List Char) : Except Fault (List Char) :=
  match skipBlanks s with
  | [] => .error .truncated
  | c :: rest => if c = ':' then .ok rest else .error .illFormed

theorem length_skipColon_lt {s rest : List Char} (h : skipColon s = .ok rest) :
    rest.length < s.length := by
  have hs := length_skipBlanks_le s
  unfold skipColon at h
  split at h
  · cases h
  · next hb =>
    split at h
    · cases h
      rw [hb] at hs
      exact hs
    · cases h

/-- The text after a value that is no array and no object.  A numeral that the end of the text
cuts short is no JSON here. -/
def skipScalar : List Char → Except Fault (List Char)
  | [] => .error .truncated
  | 'n' :: s => skipWord ['u', 'l', 'l'] s
  | 't' :: s => skipWord ['r', 'u', 'e'] s
  | 'f' :: s => skipWord ['a', 'l', 's', 'e'] s
  | '"' :: s => (scanString s).rest
  | c :: s =>
    match scanNumeral (c :: s) with
    | .ok (_, rest) => .ok rest
    | .error _ => .error .illFormed

theorem length_skipScalar_lt {s rest : List Char} (h : skipScalar s = .ok rest) :
    rest.length < s.length := by
  unfold skipScalar at h
  split at h
  · cases h
  · exact Nat.lt_succ_of_le (length_skipWord_le h)
  · exact Nat.lt_succ_of_le (length_skipWord_le h)
  · exact Nat.lt_succ_of_le (length_skipWord_le h)
  · exact Nat.lt_succ_of_lt (length_scanString_lt h)
  · split at h
    · next hn =>
      cases h
      exact length_scanNumeral_lt hn
    · cases h

/-- What can be open around a value. -/
inductive Container where
  | array
  | object
  deriving DecidableEq, Repr

namespace Container

/-- The container that a character opens. -/
def ofOpening? (c : Char) : Option Container :=
  if c = '[' then some .array else if c = '\x7b' then some .object else none

/-- The character that ends a container. -/
def closing : Container → Char
  | array => ']'
  | object => '\x7d'

end Container

/-- What stands at a place in a value. -/
inductive Place where
  /-- A value. -/
  | value
  /-- The name of a member, with its colon and its value. -/
  | member
  /-- What follows a value: a comma, or the end of the innermost container. -/
  | follow
  deriving DecidableEq, Repr

/-- What a container holds. -/
def Container.item : Container → Place
  | array => .value
  | object => .member

/-- The text after the name of a member and its colon. -/
def skipName : List Char → Except Fault (List Char)
  | '"' :: s => do skipColon (← (scanString s).rest)
  | _ => .error .illFormed

theorem length_skipName_lt {s rest : List Char} (h : skipName s = .ok rest) :
    rest.length < s.length := by
  unfold skipName at h
  split at h
  · simp only [bind, Except.bind] at h
    split at h
    · cases h
    · next hs =>
      have h1 := length_scanString_lt hs
      have h2 := length_skipColon_lt h
      simp only [List.length_cons]
      omega
  · cases h

/-- The text after the value that begins at a place, with these containers open (the innermost
first). -/
def skipFrom (around : List Container) (place : Place) (s : List Char) :
    Except Fault (List Char) :=
  match place, around with
  | .follow, [] => .ok s
  | .follow, inner :: outer =>
    match hs : skipBlanks s with
    | [] => .error .truncated
    | c :: rest =>
      have := hs ▸ length_skipBlanks_le s
      if c = inner.closing then skipFrom outer .follow rest
      else if c = ',' then skipFrom (inner :: outer) inner.item rest
      else .error .illFormed
  | .member, around =>
    match hs : skipBlanks s with
    | [] => .error .truncated
    | c :: rest =>
      have := hs ▸ length_skipBlanks_le s
      match hn : skipName (c :: rest) with
      | .error fault => .error fault
      | .ok rest' =>
        have := length_skipName_lt hn
        skipFrom around .value rest'
  | .value, around =>
    match hs : skipBlanks s with
    | [] => .error .truncated
    | c :: rest =>
      have := hs ▸ length_skipBlanks_le s
      match Container.ofOpening? c with
      | some inner =>
        have := length_skipBlanks_le rest
        if (skipBlanks rest).head? = some inner.closing then
          skipFrom around .follow (skipBlanks rest).tail
        else skipFrom (inner :: around) inner.item rest
      | none =>
        match hv : skipScalar (c :: rest) with
        | .error fault => .error fault
        | .ok rest' =>
          have := length_skipScalar_lt hv
          skipFrom around .follow rest'
termination_by s.length
decreasing_by all_goals simp_all only [List.length_cons, List.length_tail]; omega

theorem length_skipFrom_le {around : List Container} {place : Place} {s rest : List Char}
    (h : skipFrom around place s = .ok rest) : rest.length ≤ s.length := by
  fun_induction skipFrom around place s <;> simp_all <;> omega

/-- The text after a value of any kind. -/
def skipValue (s : List Char) : Except Fault (List Char) :=
  skipFrom [] .value s

theorem length_skipValue_le {s rest : List Char} (h : skipValue s = .ok rest) :
    rest.length ≤ s.length :=
  length_skipFrom_le h

end WindowedLz4.Json
