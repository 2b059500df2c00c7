/-
Writing blocks.

A sequence opens with a token of two nibbles, one for the number of literals
and one for the length of the copy.  A nibble of 15 is continued by a code: 255
as often as it fits, then the rest.
-/
import WindowedLz4.Block.Basic
namespace WindowedLz4

/-- The code that continues a full nibble: 255 as often as it fits, then the rest. -/
def lengthCode (n : Nat) : List UInt8 :=
  List.replicate (n / 255) 255 ++ [(n % 255).toUInt8]

/-- What follows the token for a count of `n`: nothing if the nibble holds it. -/
def lengthExtension (n : Nat) : List UInt8 :=
  if n < 15 then [] else lengthCode (n - 15)

/-- The token of two counts, each cut to a nibble. -/
def token (literals copy : Nat) : UInt8 :=
  (min literals 15 * 16 + min copy 15).toUInt8

/-- An offset in two bytes, the low one first. -/
def offsetBytes (offset : Nat) : List UInt8 :=
  [(offset % 256).toUInt8, (offset / 256).toUInt8]

/-- A sequence as written. -/
def Sequence.bytes (s : Sequence) : List UInt8 :=
  token s.literals.length (s.length - minLength) ::
    (lengthExtension s.literals.length ++ s.literals ++
      offsetBytes s.offset ++ lengthExtension (s.length - minLength))

/-- The last literals as written: a token that speaks of no copy, and the bytes. -/
def tailBytes (tail : List UInt8) : List UInt8 :=
  token tail.length 0 :: (lengthExtension tail.length ++ tail)

/-- A block as written. -/
def Block.bytes (b : Block) : List UInt8 :=
  b.sequences.flatMap Sequence.bytes ++ tailBytes b.tail

/-- No block is written as nothing. -/
theorem Block.bytes_ne_nil (b : Block) : b.bytes ≠ [] := by
  simp [Block.bytes, tailBytes]

end WindowedLz4
