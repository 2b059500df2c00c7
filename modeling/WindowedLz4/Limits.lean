/-
The fixed sizes of the library: what a block can hold, how far it can refer
back, and how much room its encoding can need.
-/
namespace WindowedLz4

/-- The longest input of one block. -/
def maxInputSize : Nat := 0x7E000000

/-- The smallest dictionary size a session works with. -/
def minDictionarySize : Nat := 4096

/-- The largest dictionary size a session works with. -/
def maxDictionarySize : Nat := maxInputSize

/-- The smallest message size limit a session works with. -/
def minMessageSize : Nat := 256

/-- The largest message size limit a session works with. -/
def maxMessageSize : Nat := maxInputSize

/-- The dictionary size of a session that does not choose one. -/
def defaultDictionarySize : Nat := 64 * 1024

/-- The message size limit of a session that does not choose one. -/
def defaultMaxMessageSize : Nat := 4 * 1024

/-- The farthest a match can reach back: its offset is written in two bytes. -/
def maxDistance : Nat := 64 * 1024 - 1

/-- The largest number a size or a count can hold. -/
def maxWord : Nat := UInt64.size - 1

/-- A length that the encoding of `size` bytes never exceeds; 0 for an empty or
an oversized input, which are not encoded at all. -/
def compressBound (size : Nat) : Nat :=
  if size = 0 ∨ maxInputSize < size then 0 else size + size / 255 + 16

/-- The room that is set aside to encode `size` bytes. -/
def encodingRoom (size : Nat) : Nat :=
  20 + size * 110 / 100

/-- The most plaintext a block of `size` bytes can stand for: every byte adds at most 255. -/
def maxPlainSize (size : Nat) : Nat :=
  min (size * 255) maxWord

end WindowedLz4
