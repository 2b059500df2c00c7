/-
Byte strings and the few cuts the library makes in them.

History is always a suffix (`lastBytes`), and a decoder writes into a fixed
room (`overwrite`).  Both are total: a suffix longer than the string is the
string, and a byte written beyond the room is dropped.
-/
namespace WindowedLz4

/-- A string of bytes. -/
abbrev Bytes := Array UInt8

/-- The last `n` bytes, or all of them if there are fewer. -/
def lastBytes (n : Nat) (bytes : Bytes) : Bytes :=
  bytes.extract (bytes.size - n) bytes.size

theorem size_lastBytes (n : Nat) (bytes : Bytes) :
    (lastBytes n bytes).size = min n bytes.size := by
  simp [lastBytes]
  omega

/-- A string no longer than `n` is its own last `n` bytes. -/
theorem lastBytes_eq_self {n : Nat} {bytes : Bytes} (h : bytes.size ≤ n) :
    lastBytes n bytes = bytes := by
  simp [lastBytes, Nat.sub_eq_zero_of_le h]

/-- The room with `bytes` written from position `pos` on. -/
def overwrite {n : Nat} (room : Vector UInt8 n) (pos : Nat) : List UInt8 → Vector UInt8 n
  | [] => room
  | b :: bytes => overwrite (room.setIfInBounds pos b) (pos + 1) bytes

/-- Writing changes no byte before the position it starts from. -/
theorem getElem_overwrite_of_lt {n : Nat} (room : Vector UInt8 n) (pos : Nat)
    (bytes : List UInt8) {i : Nat} (hi : i < n) (h : i < pos) :
    (overwrite room pos bytes)[i] = room[i] := by
  induction bytes generalizing room pos with
  | nil => rfl
  | cons b bytes ih =>
    rw [overwrite, ih _ (pos + 1) (by omega), Vector.getElem_setIfInBounds_ne hi (by omega)]

/-- Writing changes no byte past its end. -/
theorem getElem_overwrite_of_le {n : Nat} (room : Vector UInt8 n) (pos : Nat)
    (bytes : List UInt8) {i : Nat} (hi : i < n) (h : pos + bytes.length ≤ i) :
    (overwrite room pos bytes)[i] = room[i] := by
  induction bytes generalizing room pos with
  | nil => rfl
  | cons b bytes ih =>
    simp only [List.length_cons] at h
    rw [overwrite, ih _ (pos + 1) (by omega), Vector.getElem_setIfInBounds_ne hi (by omega)]

/-- Offsets into a window are 64-bit words, and so is their sum. -/
def wordSum (a b : Nat) : Nat :=
  (a + b) % UInt64.size

/-- A sum that fits a word is the exact one. -/
theorem wordSum_eq_add {a b : Nat} (h : a + b < UInt64.size) : wordSum a b = a + b :=
  Nat.mod_eq_of_lt h

end WindowedLz4
