/-
Cutting byte strings and joining them.

Everything a codec may refer to is the end of a byte string that only grows, and
all the cuts in the library are `lastBytes`.  Two facts carry the rest: cutting
the front of a string before something is appended changes nothing of the end
(`lastBytes_append_congr`), and the end of a joined string is the end of its
second part, with the end of the first in front if there is room left
(`lastBytes_append`).

A room that is written into has three parts: the bytes before the position, which
stay, the bytes written, which are there, and whatever stands behind them.
-/
import WindowedLz4.Bytes
namespace WindowedLz4

/-! ### Joining -/

/-- Appending a list is appending its array. -/
theorem append_list_eq (a : Bytes) (l : List UInt8) : a ++ l = a ++ l.toArray := by
  apply Array.ext'
  simp

@[simp] theorem size_append_list (a : Bytes) (l : List UInt8) :
    (a ++ l).size = a.size + l.length := by
  rw [append_list_eq, Array.size_append]
  rfl

theorem append_list_assoc (a b : Bytes) (l : List UInt8) : a ++ b ++ l = a ++ (b ++ l) := by
  rw [append_list_eq, append_list_eq, Array.append_assoc]

/-- What was appended is cut off again. -/
theorem extract_append_size (a b : Bytes) : (a ++ b).extract a.size (a ++ b).size = b := by
  rw [Array.extract_append, Array.size_append, Nat.sub_self, Nat.add_sub_cancel_left,
    Array.extract_size, Array.extract_empty_of_size_le_start (Nat.le_refl _), Array.empty_append]

/-- A string is what stands before a position and what stands behind it. -/
theorem extract_append_extract_size {bytes : Bytes} {pos : Nat} (h : pos ≤ bytes.size) :
    bytes.extract 0 pos ++ bytes.extract pos bytes.size = bytes := by
  rw [Array.extract_append_extract, Nat.zero_min, Nat.max_eq_right h, Array.extract_size]

/-- Byte strings one behind the other. -/
def joined : List Bytes → Bytes
  | [] => #[]
  | bytes :: rest => bytes ++ joined rest

theorem joined_append (front back : List Bytes) :
    joined (front ++ back) = joined front ++ joined back := by
  induction front with
  | nil => exact Array.empty_append.symm
  | cons bytes rest ih => rw [List.cons_append, joined, joined, ih, Array.append_assoc]

@[simp] theorem joined_concat (front : List Bytes) (bytes : Bytes) :
    joined (front ++ [bytes]) = joined front ++ bytes := by
  rw [joined_append, joined, joined, Array.append_empty]

/-! ### The last bytes -/

@[simp] theorem lastBytes_zero (bytes : Bytes) : lastBytes 0 bytes = #[] := by
  simp [lastBytes]

@[simp] theorem lastBytes_empty (n : Nat) : lastBytes n #[] = #[] := by
  simp [lastBytes]

/-- The end of a joined string: the end of the second part, and as much of the first as
there is room for. -/
theorem lastBytes_append (n : Nat) (a b : Bytes) :
    lastBytes n (a ++ b) = lastBytes (n - b.size) a ++ lastBytes n b := by
  have hright : b.extract (a.size + b.size - n - a.size) (a.size + b.size - a.size)
      = lastBytes n b := by
    rw [lastBytes, show a.size + b.size - n - a.size = b.size - n by omega,
      Nat.add_sub_cancel_left]
  have hleft : a.extract (a.size + b.size - n) (a.size + b.size) = lastBytes (n - b.size) a := by
    have hstop : a.extract (a.size + b.size - n) (a.size + b.size)
        = a.extract (a.size + b.size - n) a.size :=
      Array.extract_eq_extract_right.mpr (by omega)
    rw [lastBytes, hstop]
    rcases Nat.le_total n b.size with hn | hn
    · rw [Array.extract_empty_of_size_le_start (by omega),
        Array.extract_empty_of_size_le_start (by omega)]
    · rw [show a.size + b.size - n = a.size - (n - b.size) by omega]
  rw [lastBytes, Array.size_append, Array.extract_append, hleft, hright]

/-- A second part that fills the room is all there is. -/
theorem lastBytes_append_of_le {n : Nat} (a : Bytes) {b : Bytes} (h : n ≤ b.size) :
    lastBytes n (a ++ b) = lastBytes n b := by
  rw [lastBytes_append, Nat.sub_eq_zero_of_le h, lastBytes_zero, Array.empty_append]

/-- A second part that fits is there as a whole. -/
theorem lastBytes_append_of_ge {n : Nat} (a : Bytes) {b : Bytes} (h : b.size ≤ n) :
    lastBytes n (a ++ b) = lastBytes (n - b.size) a ++ b := by
  rw [lastBytes_append, lastBytes_eq_self h]

theorem lastBytes_lastBytes {m n : Nat} (h : m ≤ n) (a : Bytes) :
    lastBytes m (lastBytes n a) = lastBytes m a := by
  have hsize := size_lastBytes n a
  unfold lastBytes at hsize ⊢
  rw [hsize, Array.extract_extract,
    show a.size - n + (min n a.size - m) = a.size - m by omega,
    show min (a.size - n + min n a.size) a.size = a.size by omega]

/-- Cutting the front of a string does not show in the end of a longer one. -/
theorem lastBytes_lastBytes_append (n : Nat) (a b : Bytes) :
    lastBytes n (lastBytes n a ++ b) = lastBytes n (a ++ b) := by
  rw [lastBytes_append, lastBytes_append, lastBytes_lastBytes (Nat.sub_le n b.size)]

/-- Strings with the same end still have it when the same is appended to both. -/
theorem lastBytes_append_congr {n : Nat} {a b : Bytes} (h : lastBytes n a = lastBytes n b)
    (c : Bytes) : lastBytes n (a ++ c) = lastBytes n (b ++ c) := by
  rw [← lastBytes_lastBytes_append n a, h, lastBytes_lastBytes_append]

/-- A string is what stands before its last bytes, and them. -/
theorem extract_append_lastBytes (n : Nat) (bytes : Bytes) :
    bytes.extract 0 (bytes.size - n) ++ lastBytes n bytes = bytes :=
  extract_append_extract_size (Nat.sub_le _ _)

/-! ### Writing into a room -/

/-- The bytes written are there. -/
theorem getElem_overwrite {n : Nat} (room : Vector UInt8 n) (pos : Nat) (bytes : List UInt8)
    {i : Nat} (hi : i < n) (hge : pos ≤ i) (hlt : i < pos + bytes.length) :
    (overwrite room pos bytes)[i] = bytes[i - pos] := by
  induction bytes generalizing room pos with
  | nil =>
      rw [List.length_nil] at hlt
      omega
  | cons b bytes ih =>
      rw [List.length_cons] at hlt
      rw [overwrite]
      rcases Nat.eq_or_lt_of_le hge with rfl | hpos
      · rw [getElem_overwrite_of_lt _ _ _ hi (Nat.lt_succ_self _)]
        simp
      · rw [ih _ (pos + 1) hpos (by omega), List.getElem_cons, dif_neg (by omega)]
        congr 1

/-- Writing leaves what stands before the position. -/
theorem extract_overwrite_of_le {n : Nat} (room : Vector UInt8 n) {pos stop : Nat}
    (bytes : List UInt8) (h : stop ≤ pos) :
    (overwrite room pos bytes).toArray.extract 0 stop = room.toArray.extract 0 stop := by
  apply Array.ext
  · simp
  · intro i hi _
    rw [Array.size_extract, Vector.size_toArray] at hi
    rw [Array.getElem_extract, Array.getElem_extract, Vector.getElem_toArray,
      Vector.getElem_toArray, getElem_overwrite_of_lt _ _ _ (by omega) (by omega)]

/-- What was written is read back from the position. -/
theorem extract_overwrite {n : Nat} (room : Vector UInt8 n) {pos : Nat} (bytes : Bytes)
    (h : pos + bytes.size ≤ n) :
    (overwrite room pos bytes.toList).toArray.extract pos (pos + bytes.size) = bytes := by
  apply Array.ext
  · rw [Array.size_extract, Vector.size_toArray]
    omega
  · intro i hi _
    rw [Array.size_extract, Vector.size_toArray] at hi
    rw [Array.getElem_extract, Vector.getElem_toArray,
      getElem_overwrite _ _ _ (by omega) (by omega) (by rw [Array.length_toList]; omega)]
    simp

end WindowedLz4
