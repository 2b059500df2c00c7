/-
Reading blocks.

`Reading.ofBytes` keeps the sequences that stand before a fault, because whoever
decodes a block has acted on them by then.  A block ends where the literals of
a sequence use up the input; the low nibble of that last token says nothing.
-/
import WindowedLz4.Block.Basic
namespace WindowedLz4

/-- The first `n` elements and the rest, if there are that many. -/
def splitExactly? {α : Type} (n : Nat) (xs : List α) : Option (List α × List α) :=
  go [] n xs
where
  go (taken : List α) : Nat → List α → Option (List α × List α)
    | 0, rest => some (taken.reverse, rest)
    | _ + 1, [] => none
    | n + 1, x :: rest => go (x :: taken) n rest

private theorem splitExactly?_go_length {α : Type} {taken xs first rest : List α} {n : Nat}
    (h : splitExactly?.go taken n xs = some (first, rest)) : rest.length ≤ xs.length := by
  induction n generalizing taken xs with
  | zero => simp_all [splitExactly?.go]
  | succ n ih =>
    cases xs with
    | nil => simp [splitExactly?.go] at h
    | cons x xs => exact Nat.le_succ_of_le (ih h)

theorem splitExactly?_length {α : Type} {xs first rest : List α} {n : Nat}
    (h : splitExactly? n xs = some (first, rest)) : rest.length ≤ xs.length :=
  splitExactly?_go_length h

/-- The sum of a length code that adds to `sum`, and what follows it. -/
def readLengthCode (sum : Nat) : List UInt8 → Option (Nat × List UInt8)
  | [] => none
  | b :: rest => if b = 255 then readLengthCode (sum + 255) rest else some (sum + b.toNat, rest)

theorem readLengthCode_length {sum n : Nat} {bytes rest : List UInt8}
    (h : readLengthCode sum bytes = some (n, rest)) : rest.length ≤ bytes.length := by
  induction bytes generalizing sum with
  | nil => simp [readLengthCode] at h
  | cons b bytes ih =>
    rw [readLengthCode] at h
    split at h
    · exact Nat.le_succ_of_le (ih h)
    · simp_all

/-- The count of a nibble, with the code that continues a full one. -/
def readLength (nibble : Nat) (bytes : List UInt8) : Option (Nat × List UInt8) :=
  if nibble = 15 then readLengthCode 15 bytes else some (nibble, bytes)

theorem readLength_length {nibble n : Nat} {bytes rest : List UInt8}
    (h : readLength nibble bytes = some (n, rest)) : rest.length ≤ bytes.length := by
  rw [readLength] at h
  split at h
  · exact readLengthCode_length h
  · simp_all

/-- What stands at the head of a written block. -/
inductive Head where
  /-- A sequence, and the bytes after it. -/
  | sequence (s : Sequence) (rest : List UInt8)
  /-- The last literals. -/
  | tail (literals : List UInt8)
  /-- Bytes that no block begins with. -/
  | fault
  deriving DecidableEq, Repr

/-- The copy of a sequence whose literals are read: an offset, which is not 0, and a length. -/
def readCopy (literals : List UInt8) (nibble : Nat) : List UInt8 → Head
  | low :: high :: bytes =>
    let offset := low.toNat + 256 * high.toNat
    match readLength nibble bytes with
    | some (n, rest) =>
      if offset = 0 then .fault else .sequence ⟨literals, offset, n + Sequence.minLength⟩ rest
    | none => .fault
  | _ => .fault

/-- What the bytes begin with. -/
def readHead : List UInt8 → Head
  | [] => .fault
  | token :: bytes =>
    match readLength (token.toNat / 16) bytes with
    | none => .fault
    | some (count, bytes) =>
      match splitExactly? count bytes with
      | none => .fault
      | some (literals, []) => .tail literals
      | some (literals, bytes) => readCopy literals (token.toNat % 16) bytes

private theorem readCopy_length {literals bytes rest : List UInt8} {nibble : Nat} {s : Sequence}
    (h : readCopy literals nibble bytes = .sequence s rest) : rest.length < bytes.length := by
  match bytes with
  | [] | [_] => simp [readCopy] at h
  | low :: high :: bytes =>
    simp only [readCopy] at h
    split at h
    · next n rest' hn =>
      split at h
      · simp at h
      · have := readLength_length hn
        simp_all only [Head.sequence.injEq, List.length_cons]
        omega
    · simp at h

/-- A sequence takes up bytes. -/
theorem readHead_length {bytes rest : List UInt8} {s : Sequence}
    (h : readHead bytes = .sequence s rest) : rest.length < bytes.length := by
  match bytes with
  | [] => simp [readHead] at h
  | token :: bytes =>
    simp only [readHead] at h
    split at h
    · simp at h
    · next hlen =>
      have h1 := readLength_length hlen
      split at h
      · simp at h
      · simp at h
      · next hsplit =>
        have h2 := splitExactly?_length hsplit
        have h3 := readCopy_length h
        simp only [List.length_cons]
        omega

/-- The sequences of a block up to its end or its first fault, and the literals that
end it if it has no fault. -/
structure Reading where
  sequences : List Sequence
  tail : Option (List UInt8)
  deriving DecidableEq, Repr

namespace Reading

/-- Reads on, after the sequences in `before` (the latest first). -/
def continueFrom (before : List Sequence) (bytes : List UInt8) : Reading :=
  match _h : readHead bytes with
  | .sequence s rest => continueFrom (s :: before) rest
  | .tail literals => ⟨before.reverse, some literals⟩
  | .fault => ⟨before.reverse, none⟩
termination_by bytes.length
decreasing_by exact readHead_length (by assumption)

/-- The reading of written bytes. -/
def ofBytes (bytes : List UInt8) : Reading :=
  continueFrom [] bytes

/-- The block, if it is whole. -/
def block? (r : Reading) : Option Block :=
  r.tail.map fun tail => ⟨r.sequences, tail⟩

end Reading

/-- The block that is written as `bytes`. -/
def Block.ofBytes? (bytes : List UInt8) : Option Block :=
  (Reading.ofBytes bytes).block?

end WindowedLz4
