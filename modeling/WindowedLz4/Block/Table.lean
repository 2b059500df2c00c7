/-
The table a search for repeats looks its candidates up in.

A slot is chosen by a hash of the bytes at a position and keeps the latest
position recorded there.  A slot that was never written reads as position 0, so
a candidate is only ever a guess: the search compares the bytes before it
believes one.
-/
import WindowedLz4.Bytes
namespace WindowedLz4

/-- The number of slots of a table. -/
def tableSize : Nat := 4096

/-- The place of a position in a table. -/
abbrev Slot := Fin tableSize

/-- A position for every slot. -/
abbrev Table := Vector Nat tableSize

namespace Table

/-- The table in which every slot reads as position 0. -/
def empty : Table := Vector.replicate tableSize 0

/-- The position a slot holds. -/
def candidate (table : Table) (slot : Slot) : Nat := table[slot]

/-- The table with `pos` in a slot. -/
def record (table : Table) (slot : Slot) (pos : Nat) : Table := table.set slot pos

end Table

/-! ### Slots

A short text is hashed by four bytes, a long one by eight.  Both hashes multiply
the bytes, read with the low one first, and keep the top twelve bits.
-/

/-- The four bytes at `pos` as a number, the low byte first. -/
def word32 (text : Bytes) (pos : Nat) : UInt32 :=
  let byte (i : Nat) := (text.getD (pos + i) 0).toUInt32
  byte 0 ||| byte 1 <<< 8 ||| byte 2 <<< 16 ||| byte 3 <<< 24

/-- The eight bytes at `pos` as a number, the low byte first. -/
def word64 (text : Bytes) (pos : Nat) : UInt64 :=
  (word32 text pos).toUInt64 ||| (word32 text (pos + 4)).toUInt64 <<< 32

/-- The slot of a hash. -/
def slotOf (hash : Nat) : Slot :=
  ⟨hash % tableSize, Nat.mod_lt _ (by decide)⟩

/-- The slot of four bytes. -/
def narrowSlot (text : Bytes) (pos : Nat) : Slot :=
  slotOf ((word32 text pos * 2654435761) >>> 20).toNat

/-- The slot of eight bytes, of which the hash uses five. -/
def wideSlot (text : Bytes) (pos : Nat) : Slot :=
  slotOf (((word64 text pos <<< 24) * 889523592379) >>> 52).toNat

/-- Texts from this length on are hashed by eight bytes. -/
def wideTextSize : Nat := 65535

/-- The slot of a position in a text. -/
def slotAt (text : Bytes) (pos : Nat) : Slot :=
  if text.size < wideTextSize then narrowSlot text pos else wideSlot text pos

end WindowedLz4
