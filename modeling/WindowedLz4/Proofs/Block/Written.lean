/-
Reading what was written.

A written block says where each of its parts ends, so reading goes part by part:
a nibble with its length code gives the count back, the count cuts off the
literals, the offset is its two bytes.  `readHead_bytes` puts the parts together
for one sequence, and the block follows by induction on its sequences.

The only condition is `Writable`.  An offset of 0 is refused by the reader, an
offset of 65536 or more does not fit its two bytes, and a copy of fewer than four
bytes has no nibble.
-/
import WindowedLz4.Block.Printer
import WindowedLz4.Proofs.Block.Head
namespace WindowedLz4

/-! ### Counts -/

private theorem splitExactly?_go_append {α : Type} (xs : List α) :
    ∀ taken rest : List α,
      splitExactly?.go taken xs.length (xs ++ rest) = some (taken.reverse ++ xs, rest) := by
  induction xs with
  | nil => intro taken rest; simp [splitExactly?.go]
  | cons x xs ih =>
      intro taken rest
      rw [List.length_cons, List.cons_append, splitExactly?.go, ih]
      simp

/-- A list is cut off again from what was put behind it. -/
theorem splitExactly?_append {α : Type} (xs rest : List α) :
    splitExactly? xs.length (xs ++ rest) = some (xs, rest) :=
  splitExactly?_go_append xs [] rest

theorem readLengthCode_replicate (k sum : Nat) (rest : List UInt8) :
    readLengthCode sum (List.replicate k 255 ++ rest) = readLengthCode (sum + k * 255) rest := by
  induction k generalizing sum with
  | zero => simp
  | succ k ih =>
      rw [List.replicate_succ, List.cons_append, readLengthCode, if_pos rfl, ih]
      congr 1
      omega

/-- A length code adds the number it was made of. -/
theorem readLengthCode_lengthCode (sum n : Nat) (rest : List UInt8) :
    readLengthCode sum (lengthCode n ++ rest) = some (sum + n, rest) := by
  have hmod : n % 255 < 255 := Nat.mod_lt n (by decide)
  have hlast : (n % 255).toUInt8.toNat = n % 255 := by
    rw [UInt8.toNat_ofNat']
    omega
  have hne : (n % 255).toUInt8 ≠ 255 := by
    intro h
    rw [h] at hlast
    exact absurd hlast (by rw [show (255 : UInt8).toNat = 255 from rfl]; omega)
  rw [lengthCode, List.append_assoc, readLengthCode_replicate, List.singleton_append,
    readLengthCode, if_neg hne, hlast]
  congr 2
  omega

/-- A count is read from its nibble and what follows the token. -/
theorem readLength_lengthExtension (n : Nat) (rest : List UInt8) :
    readLength (min n 15) (lengthExtension n ++ rest) = some (n, rest) := by
  unfold readLength lengthExtension
  by_cases hn : n < 15
  · rw [if_neg (by omega), if_pos hn, Nat.min_eq_left (by omega), List.nil_append]
  · rw [if_pos (by omega), if_neg hn, readLengthCode_lengthCode]
    congr 2
    omega

theorem toNat_token (literals copy : Nat) :
    (token literals copy).toNat = min literals 15 * 16 + min copy 15 := by
  rw [token, UInt8.toNat_ofNat']
  omega

/-- The two bytes of an offset that fits them. -/
theorem toNat_offsetBytes {offset : Nat} (h : offset < 65536) :
    (offset % 256).toUInt8.toNat + 256 * (offset / 256).toUInt8.toNat = offset := by
  rw [UInt8.toNat_ofNat', UInt8.toNat_ofNat']
  omega

/-! ### Parts of a block -/

/-- The literals of a sequence are never the end of the input: an offset follows. -/
private theorem readHead_cons {literals rest : List UInt8} {token : UInt8}
    (hcount : token.toNat / 16 = min literals.length 15) (hrest : rest ≠ []) :
    readHead (token :: (lengthExtension literals.length ++ (literals ++ rest)))
      = readCopy literals (token.toNat % 16) rest := by
  simp only [readHead, hcount, readLength_lengthExtension, splitExactly?_append]

/-- A written sequence is read back, whatever follows it. -/
theorem readHead_bytes {s : Sequence} (h : s.Writable) (rest : List UInt8) :
    readHead (s.bytes ++ rest) = .sequence s rest := by
  obtain ⟨hlength, hpos, hfits⟩ := h
  have htoken := toNat_token s.literals.length (s.length - Sequence.minLength)
  have happend : s.bytes ++ rest
      = token s.literals.length (s.length - Sequence.minLength) ::
          (lengthExtension s.literals.length ++ (s.literals ++
            (offsetBytes s.offset ++
              (lengthExtension (s.length - Sequence.minLength) ++ rest)))) := by
    simp [Sequence.bytes]
  rw [happend, readHead_cons (by omega) (by simp [offsetBytes])]
  have hcopy : (token s.literals.length (s.length - Sequence.minLength)).toNat % 16
      = min (s.length - Sequence.minLength) 15 := by omega
  simp only [offsetBytes, List.cons_append, List.nil_append, readCopy, hcopy,
    readLength_lengthExtension, toNat_offsetBytes hfits, if_neg (Nat.ne_of_gt hpos)]
  rw [Nat.sub_add_cancel hlength]

/-- The last literals are read back. -/
theorem readHead_tailBytes (tail : List UInt8) : readHead (tailBytes tail) = .tail tail := by
  have hcount : (token tail.length 0).toNat / 16 = min tail.length 15 := by
    rw [toNat_token]
    omega
  have hsplit := splitExactly?_append tail []
  rw [List.append_nil] at hsplit
  simp only [tailBytes, readHead, hcount, readLength_lengthExtension, hsplit]

namespace Reading

private theorem continueFrom_bytes (tail : List UInt8) :
    ∀ (sequences before : List Sequence), (∀ s ∈ sequences, s.Writable) →
      continueFrom before (Block.bytes ⟨sequences, tail⟩)
        = ⟨before.reverse ++ sequences, some tail⟩ := by
  intro sequences
  induction sequences with
  | nil =>
      intro before _
      rw [show Block.bytes ⟨[], tail⟩ = tailBytes tail from rfl,
        continueFrom_tail before (readHead_tailBytes tail), List.append_nil]
  | cons s rest ih =>
      intro before hall
      have hs : s.Writable := hall s (by simp)
      have hcons : Block.bytes ⟨s :: rest, tail⟩ = s.bytes ++ Block.bytes ⟨rest, tail⟩ := by
        simp [Block.bytes]
      rw [hcons, continueFrom_sequence before (readHead_bytes hs _),
        ih (s :: before) fun s' hs' => hall s' (by simp [hs'])]
      simp

/-- **A written block is read back.** -/
theorem ofBytes_bytes {b : Block} (h : b.Writable) :
    ofBytes b.bytes = ⟨b.sequences, some b.tail⟩ :=
  continueFrom_bytes b.tail b.sequences [] h

end Reading

end WindowedLz4
