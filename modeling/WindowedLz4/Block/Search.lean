/-
Finding repeats.

The dictionary and the input are one text, and the search walks the input part
of it from left to right.  At each position it asks the table for an earlier
one with the same four bytes near enough to refer to; a repeat is stretched as
far as it goes in both directions, and the walk resumes after it.  The longer
nothing is found, the longer the strides.

What the search returns is a block, and all that matters of it is that each of
its sequences repeats what stands `offset` bytes back: which repeats are found
decides only how long the block is.
-/
import WindowedLz4.Block.Basic
import WindowedLz4.Block.Table
import WindowedLz4.Limits
namespace WindowedLz4

/-- A dictionary shorter than this is not used. -/
def minUsefulDictionary : Nat := 4

/-- An input shorter than this is written as literals. -/
def minSearchedInput : Nat := 13

/-- A search starts no later than this many bytes before the end. -/
def searchMargin : Nat := 12

/-- A repeat stops at least this many bytes before the end. -/
def repeatMargin : Nat := 6

/-- A text of which the part from `start` on is to be encoded. -/
structure Passage where
  text : Bytes
  start : Nat
  start_le : start ≤ text.size
  deriving Repr

namespace Passage

/-- An input after its dictionary, unless that is too short to be used. -/
def of (dictionary input : Bytes) : Passage :=
  if dictionary.size < minUsefulDictionary then ⟨input, 0, Nat.zero_le _⟩
  else ⟨dictionary ++ input, dictionary.size, by simp⟩

/-- The length of the input part. -/
def size (p : Passage) : Nat := p.text.size - p.start

end Passage

/-! ### Stretching a repeat -/

/-- Whether the same four bytes stand at both positions. -/
def sameFour (text : Bytes) (a b : Nat) : Bool :=
  text.getD a 0 == text.getD b 0 && text.getD (a + 1) 0 == text.getD (b + 1) 0 &&
    text.getD (a + 2) 0 == text.getD (b + 2) 0 && text.getD (a + 3) 0 == text.getD (b + 3) 0

/-- The first position, not before `lower`, from which each byte up to `pos` equals the
byte `offset` back. -/
def repeatStart (text : Bytes) (offset lower : Nat) : Nat → Nat
  | 0 => 0
  | pos + 1 =>
    if lower ≤ pos ∧ text.getD pos 0 = text.getD (pos - offset) 0 then
      repeatStart text offset lower pos
    else pos + 1

/-- The last position, not past `upper`, up to which each byte from `pos` on equals the
byte `offset` back. -/
def repeatStop (text : Bytes) (offset upper pos : Nat) : Nat :=
  if pos < upper ∧ text.getD pos 0 = text.getD (pos - offset) 0 then
    repeatStop text offset upper (pos + 1)
  else pos
termination_by upper - pos

theorem repeatStart_le (text : Bytes) (offset lower pos : Nat) :
    repeatStart text offset lower pos ≤ pos := by
  induction pos with
  | zero => exact Nat.le_refl 0
  | succ pos ih =>
    rw [repeatStart]
    split
    · omega
    · exact Nat.le_refl _

theorem le_repeatStop (text : Bytes) (offset upper pos : Nat) :
    pos ≤ repeatStop text offset upper pos := by
  fun_induction repeatStop text offset upper pos with
  | case1 pos _ ih => omega
  | case2 => exact Nat.le_refl _

/-! ### The walk -/

/-- The table of a passage before the walk: every third position of the dictionary with
eight bytes after it that are also in the dictionary. -/
def Passage.seeded (p : Passage) : Table :=
  go .empty 0
where
  go (table : Table) (pos : Nat) : Table :=
    if pos + 8 ≤ p.start then go (table.record (slotAt p.text pos) pos) (pos + 3) else table
  termination_by p.start - pos

/-- A repeat: where it stands, and how far back it stood before. -/
structure Repeat where
  first : Nat
  stop : Nat
  offset : Nat
  deriving DecidableEq, Repr

namespace Passage

/-- The repeat at `pos` of the text at `candidate`, stretched to its full length, but not
into the literals that are already written.  A repeat of the dictionary ends with it, and a
repeat of the input begins in it. -/
def stretch (p : Passage) (written candidate pos : Nat) : Repeat :=
  let offset := pos - candidate
  let sourceStart := if p.start ≤ candidate then p.start else 0
  let sourceStop := if p.start ≤ candidate then p.text.size else p.start
  { first := repeatStart p.text offset (max written (sourceStart + offset)) pos
    stop := repeatStop p.text offset (min (p.text.size - repeatMargin) (sourceStop + offset))
      (pos + Sequence.minLength)
    offset }

/-- The repeat at `pos` that the table proposes, if it is one. -/
def repeatAt? (p : Passage) (written candidate pos : Nat) : Option Repeat :=
  if pos - candidate ≤ maxDistance ∧ sameFour p.text candidate pos then
    some (p.stretch written candidate pos)
  else none

/-- The sequence of a repeat and of the literals from `written` up to it. -/
def sequence (p : Passage) (written : Nat) (r : Repeat) : Sequence where
  literals := (p.text.extract written r.first).toList
  offset := r.offset
  length := r.stop - r.first

theorem lt_stop_of_repeatAt? {p : Passage} {written candidate pos : Nat} {r : Repeat}
    (h : p.repeatAt? written candidate pos = some r) : pos < r.stop := by
  rw [repeatAt?] at h
  split at h
  · cases h
    exact Nat.lt_of_lt_of_le (by simp [Sequence.minLength]) (le_repeatStop _ _ _ _)
  · cases h

/-- The stride after the `missed`-th position in a row without a repeat. -/
def stride (missed : Nat) : Nat :=
  (32 + missed) / 32

theorem stride_pos (missed : Nat) : 0 < stride missed := by
  unfold stride
  omega

/-- The walk from `pos` on, with everything before `written` already in `found` (the latest
sequence first). -/
def walk (p : Passage) (table : Table) (found : List Sequence) (written missed pos : Nat) : Block :=
  if _h : pos + searchMargin ≤ p.text.size then
    let slot := slotAt p.text pos
    let candidate := table.candidate slot
    let table := table.record slot pos
    match _hr : p.repeatAt? written candidate pos with
    | some r =>
      walk p (table.record (slotAt p.text (r.stop - 2)) (r.stop - 2))
        (p.sequence written r :: found) r.stop 0 r.stop
    | none => walk p table found written (missed + 1) (pos + stride missed)
  else ⟨found.reverse, (p.text.extract written p.text.size).toList⟩
termination_by p.text.size - pos
decreasing_by
  · have := lt_stop_of_repeatAt? (by assumption)
    simp only [searchMargin] at *
    omega
  · have := stride_pos missed
    simp only [searchMargin] at *
    omega

/-- The block that encodes the input part of a passage. -/
def block (p : Passage) : Block :=
  if p.size < minSearchedInput then ⟨[], (p.text.extract p.start p.text.size).toList⟩
  else if p.start = 0 then
    p.walk (p.seeded.record (slotAt p.text 0) 0) [] 0 0 1
  else p.walk p.seeded [] p.start 0 p.start

end Passage

/-- A block that stands for `input` after `dictionary`. -/
def Block.encode (dictionary input : Bytes) : Block :=
  (Passage.of dictionary input).block

end WindowedLz4
