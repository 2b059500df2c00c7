/-
How long frames are, and how long their plaintext.

Both bounds are counted part by part.  Written, a sequence costs at most the
bytes it stands for and one more for every 255 literals: a copy stands for at
least four bytes, which pay for the token, the offset and the first byte of the
literals' length code.  Summed over a block the floors add up to one floor, and
the last literals have two bytes of their own (`length_bytes_le`).

Read, each byte of a frame stands for at most 255 bytes of plaintext.  A byte of a
length code adds 255, a literal is one byte, and the token with the offset has
three bytes for the two nibbles (`size_le_of_frameText?`).
-/
import WindowedLz4.Block.Printer
import WindowedLz4.Limits
import WindowedLz4.Proofs.Block.Head
import WindowedLz4.Proofs.Block.Meaning
namespace WindowedLz4

/-! ### Written -/

theorem length_lengthCode (n : Nat) : (lengthCode n).length = n / 255 + 1 := by
  simp [lengthCode]

theorem length_lengthExtension_le (n : Nat) :
    (lengthExtension n).length ≤ n / 255 + 1 ∧ (lengthExtension n).length ≤ n := by
  unfold lengthExtension
  split
  · simp
  · rw [length_lengthCode]
    omega

/-- A written sequence is no longer than its plaintext, but for its literals' length code. -/
theorem Sequence.length_bytes_le {s : Sequence} (h : minLength ≤ s.length) :
    s.bytes.length ≤ s.size + s.literals.length / 255 := by
  obtain ⟨hliterals, -⟩ := length_lengthExtension_le s.literals.length
  obtain ⟨-, hcopy⟩ := length_lengthExtension_le (s.length - minLength)
  simp only [bytes, size, offsetBytes, List.length_cons, List.length_append, List.length_nil]
  simp only [minLength] at *
  omega

theorem length_tailBytes_le (tail : List UInt8) :
    (tailBytes tail).length ≤ tail.length + tail.length / 255 + 2 := by
  obtain ⟨htail, -⟩ := length_lengthExtension_le tail.length
  simp only [tailBytes, List.length_cons, List.length_append]
  omega

/-- **A written block is its plaintext, one byte for every 255, and two.** -/
theorem Block.length_bytes_le {b : Block} (h : b.Writable) :
    b.bytes.length ≤ b.size + b.size / 255 + 2 := by
  obtain ⟨sequences, tail⟩ := b
  have htail := length_tailBytes_le tail
  simp only [Writable, bytes, size, List.length_append] at *
  induction sequences with
  | nil => simpa [Sequence.sizeAll] using htail
  | cons s rest ih =>
      have hs := Sequence.length_bytes_le (h s (by simp)).1
      have hrest := ih fun s' hs' => h s' (by simp [hs'])
      simp only [List.flatMap_cons, List.length_append, Sequence.sizeAll]
      simp only [Sequence.size] at *
      omega

/-- The room that is set aside for an encoding is enough. -/
theorem compressBound_le_encodingRoom {n : Nat} : compressBound n ≤ encodingRoom n := by
  unfold compressBound encodingRoom
  split <;> omega

/-! ### Read -/

theorem readLengthCode_le {bytes rest : List UInt8} {sum n : Nat}
    (h : readLengthCode sum bytes = some (n, rest)) :
    n + 255 * rest.length ≤ sum + 255 * bytes.length := by
  induction bytes generalizing sum with
  | nil => simp [readLengthCode] at h
  | cons b bytes ih =>
      rw [readLengthCode] at h
      rw [List.length_cons]
      split at h
      · have := ih h
        omega
      · simp only [Option.some.injEq, Prod.mk.injEq] at h
        obtain ⟨rfl, rfl⟩ := h
        have := b.toNat_lt
        omega

theorem readLength_le {bytes rest : List UInt8} {nibble n : Nat} (hnibble : nibble ≤ 15)
    (h : readLength nibble bytes = some (n, rest)) :
    n + 255 * rest.length ≤ 15 + 255 * bytes.length := by
  rw [readLength] at h
  split at h
  · exact readLengthCode_le h
  · simp only [Option.some.injEq, Prod.mk.injEq] at h
    obtain ⟨rfl, rfl⟩ := h
    omega

private theorem readCopy_le {literals bytes rest : List UInt8} {nibble : Nat} {s : Sequence}
    (hnibble : nibble ≤ 15) (h : readCopy literals nibble bytes = .sequence s rest) :
    s.size + 255 * (rest.length + 1) ≤ literals.length + 255 * bytes.length := by
  obtain ⟨low, high, after, n, rfl, hlength, -, rfl⟩ := readCopy_eq_sequence h
  have hle := readLength_le hnibble hlength
  simp only [Sequence.size, Sequence.minLength, List.length_cons]
  omega

/-- Each byte at the head of a block stands for at most 255 bytes of plaintext. -/
theorem readHead_sequence_le {bytes rest : List UInt8} {s : Sequence}
    (h : readHead bytes = .sequence s rest) :
    s.size + 255 * rest.length ≤ 255 * bytes.length := by
  obtain ⟨token, after, count, counted, literals, behind, rfl, hlength, hsplit, -, hcopy⟩ :=
    readHead_eq_sequence h
  have htoken := token.toNat_lt
  have hle := readLength_le (by omega) hlength
  have hsize := readCopy_le (by omega) hcopy
  rw [splitExactly?_eq_some hsplit, List.length_append] at hle
  rw [List.length_cons]
  omega

theorem readHead_tail_le {bytes literals : List UInt8} (h : readHead bytes = .tail literals) :
    literals.length ≤ bytes.length := by
  obtain ⟨token, after, count, counted, rfl, hlength, hsplit⟩ := readHead_eq_tail h
  have hle := readLength_length hlength
  rw [splitExactly?_eq_some hsplit, List.append_nil] at hle
  rw [List.length_cons]
  omega

namespace Sequence

theorem sizeAll_append (before after : List Sequence) :
    sizeAll (before ++ after) = sizeAll before + sizeAll after := by
  induction before with
  | nil => simp [sizeAll]
  | cons s rest ih => rw [List.cons_append, sizeAll, sizeAll, ih, Nat.add_assoc]

theorem sizeAll_reverse (sequences : List Sequence) :
    sizeAll sequences.reverse = sizeAll sequences := by
  induction sequences with
  | nil => rfl
  | cons s rest ih =>
      rw [List.reverse_cons, sizeAll_append, ih, sizeAll, sizeAll, sizeAll]
      omega

end Sequence

namespace Reading

/-- The bytes of plaintext that a reading stands for. -/
def size (r : Reading) : Nat :=
  Sequence.sizeAll r.sequences + (r.tail.getD []).length

private theorem size_continueFrom_le (before : List Sequence) (bytes : List UInt8) :
    (continueFrom before bytes).size
      ≤ Sequence.sizeAll before + 255 * bytes.length := by
  fun_induction continueFrom before bytes with
  | case1 before bytes s rest h ih =>
      have hle := readHead_sequence_le h
      rw [Sequence.sizeAll] at ih
      omega
  | case2 before bytes literals h =>
      have hle := readHead_tail_le h
      simp only [size, Sequence.sizeAll_reverse, Option.getD_some]
      omega
  | case3 before bytes h =>
      simp only [size, Sequence.sizeAll_reverse, Option.getD_none, List.length_nil]
      omega

/-- Written bytes stand for at most 255 times their number. -/
theorem size_ofBytes_le (bytes : List UInt8) : (ofBytes bytes).size ≤ 255 * bytes.length := by
  have h := size_continueFrom_le [] bytes
  rwa [Sequence.sizeAll, Nat.zero_add] at h

private theorem size_of_foldlM (sequences : List Sequence) :
    ∀ {text t : Bytes}, sequences.foldlM Sequence.extend? text = some t →
      t.size = text.size + Sequence.sizeAll sequences := by
  induction sequences with
  | nil =>
      intro text t h
      obtain rfl : text = t := Option.some.inj h
      rfl
  | cons s rest ih =>
      intro text t h
      rw [List.foldlM_cons] at h
      obtain ⟨u, hu, h⟩ := Option.bind_eq_some_iff.mp h
      rw [ih h, Sequence.size_of_extend? hu, Sequence.sizeAll, Nat.add_assoc]

/-- A block extends the text by what it stands for. -/
theorem size_of_extend? {r : Reading} {text t : Bytes} (h : r.extend? text = some t) :
    t.size = text.size + r.size := by
  obtain ⟨u, hu, htail⟩ := Option.bind_eq_some_iff.mp h
  obtain ⟨literals, hliterals, rfl⟩ := Option.map_eq_some_iff.mp htail
  rw [size_append_list, size_of_foldlM r.sequences hu, size, hliterals, Option.getD_some,
    Nat.add_assoc]

end Reading

/-- **A frame stands for at most 255 bytes of plaintext a byte.** -/
theorem size_le_of_frameText? {dictionary frame plain : Bytes}
    (h : frameText? dictionary frame = some plain) : plain.size ≤ 255 * frame.size := by
  have hsize := Reading.size_of_extend? (frameText?_eq_some_iff.mp h)
  have hle := Reading.size_ofBytes_le frame.toList
  rw [Array.size_append] at hsize
  rw [Array.length_toList] at hle
  omega

end WindowedLz4
