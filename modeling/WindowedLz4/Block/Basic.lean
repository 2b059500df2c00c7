/-
Blocks: what a compressed message says, apart from how it is written.

A block is a list of sequences, each a run of literal bytes and a copy of text
that stands further back, and a last run of literals that ends the message.
-/
import WindowedLz4.Bytes
namespace WindowedLz4

/-- A run of literals, followed by a copy of `length` bytes from `offset` bytes back. -/
structure Sequence where
  literals : List UInt8
  offset : Nat
  length : Nat
  deriving DecidableEq, Repr, Inhabited

/-- Sequences, and the literals after the last of them. -/
structure Block where
  sequences : List Sequence
  tail : List UInt8
  deriving DecidableEq, Repr, Inhabited

namespace Sequence

/-- The bytes of plaintext that a sequence stands for. -/
def size (s : Sequence) : Nat :=
  s.literals.length + s.length

/-- The bytes of plaintext that sequences stand for. -/
def sizeAll : List Sequence → Nat
  | [] => 0
  | s :: rest => s.size + sizeAll rest

/-- The shortest copy that can be written. -/
def minLength : Nat := 4

/-- What a written sequence can say: a copy of at least four bytes, from at least
one byte back and no farther than two bytes can tell. -/
def Writable (s : Sequence) : Prop :=
  minLength ≤ s.length ∧ 0 < s.offset ∧ s.offset < 65536

instance (s : Sequence) : Decidable s.Writable :=
  inferInstanceAs (Decidable (_ ∧ _ ∧ _))

end Sequence

namespace Block

/-- The bytes of plaintext that a block stands for. -/
def size (b : Block) : Nat :=
  Sequence.sizeAll b.sequences + b.tail.length

/-- A block all of whose sequences can be written. -/
def Writable (b : Block) : Prop :=
  ∀ s ∈ b.sequences, s.Writable

instance (b : Block) : Decidable b.Writable :=
  inferInstanceAs (Decidable (∀ _ ∈ _, _))

end Block

end WindowedLz4
