/-
A frame stands for the message it was made of.

The search leaves a chain of repeats (`Covers`), and a chain is undone link by
link: the literals are the text they were cut from, and a copy rebuilds the text
because each byte of a repeat equals the one `offset` bytes back
(`copyBack_extract`).  So the block extends the text before the passage to the
whole text.  Writing and reading it in between changes nothing, since all its
sequences can be written.

`frameOf` is the frame of a message behind a dictionary.  It stands for that
message behind the dictionary (`frameText?_frameOf`), and encoding never runs out
of room (`appendFrame_eq`).
-/
import WindowedLz4.Block.Frame
import WindowedLz4.Proofs.Block.Search
import WindowedLz4.Proofs.Block.Size
import WindowedLz4.Proofs.Block.Written
namespace WindowedLz4

/-! ### Undoing a repeat -/

theorem getD_extract_zero (text : Bytes) {i stop : Nat} (h : i < stop) :
    (text.extract 0 stop).getD i 0 = text.getD i 0 := by
  rw [Array.getD_eq_getD_getElem?, Array.getD_eq_getD_getElem?, Array.getElem?_extract]
  by_cases hi : i < min stop text.size - 0
  · rw [if_pos hi, Nat.zero_add]
  · rw [if_neg hi, Array.getElem?_eq_none (by omega)]

/-- A copy of bytes that repeat goes on with the text. -/
theorem copyBack_extract (text : Bytes) {offset : Nat} (hpos : 0 < offset) :
    ∀ (count first : Nat), offset ≤ first → first + count ≤ text.size →
      (∀ i, first ≤ i → i < first + count → text.getD i 0 = text.getD (i - offset) 0) →
      copyBack offset count (text.extract 0 first) = text.extract 0 (first + count) := by
  intro count
  induction count with
  | zero => intro first _ _ _; rfl
  | succ count ih =>
      intro first hoffset hstop hrepeat
      have hsize : (text.extract 0 first).size = first := by
        rw [Array.size_extract]
        omega
      have hbyte : (text.extract 0 first).getD (first - offset) 0 = text[first] := by
        rw [getD_extract_zero text (by omega), ← hrepeat first (Nat.le_refl _) (by omega),
          Array.getD_eq_getD_getElem?, Array.getElem?_eq_getElem (by omega), Option.getD_some]
      have hpush : (text.extract 0 first).push text[first] = text.extract 0 (first + 1) := by
        rw [Array.push_extract_getElem (by omega), Nat.zero_min]
      rw [copyBack, hsize, hbyte, hpush, ih (first + 1) (by omega) (by omega)
        fun i hge hlt => hrepeat i (by omega) (by omega)]
      congr 1
      omega

namespace Passage

variable {p : Passage} {written first last : Nat} {r : Repeat} {sequences : List Sequence}

/-- The sequence of a repeat takes the text from what is written to where the repeat stops. -/
theorem Fits.extend? (h : p.Fits written r) :
    (p.sequence written r).extend? (p.text.extract 0 written)
      = some (p.text.extract 0 r.stop) := by
  have hmargin := h.stop_le
  have hlength := h.length_ge
  have hle := h.written_le
  have hliterals : p.text.extract 0 written ++ (p.sequence written r).literals
      = p.text.extract 0 r.first := by
    rw [append_list_eq, sequence, Array.toArray_toList, Array.extract_append_extract,
      Nat.zero_min, Nat.max_eq_right hle]
  have hsize : (p.text.extract 0 written).size + (p.sequence written r).literals.length
      = r.first := by
    rw [← size_append_list, hliterals, Array.size_extract]
    omega
  have hstop : r.first + (p.sequence written r).length = r.stop := by
    show r.first + (r.stop - r.first) = r.stop
    omega
  have hcopy : copyBack r.offset (p.sequence written r).length (p.text.extract 0 r.first)
      = p.text.extract 0 r.stop := by
    rw [copyBack_extract p.text h.offset_pos _ _ h.offset_le_first (by omega)
      (by rw [hstop]; exact h.repeats), hstop]
  have hback : (p.sequence written r).offset ≤ r.first := h.offset_le_first
  rw [Sequence.extend?, hsize, if_pos hback, hliterals]
  exact congrArg some hcopy

/-- The literals of a repeat lead up to it. -/
theorem Fits.length_literals (h : p.Fits written r) :
    (p.sequence written r).literals.length = r.first - written := by
  have hfirst := h.first_le
  rw [sequence, Array.length_toList, Array.size_extract]
  omega

theorem Fits.size_sequence (h : p.Fits written r) :
    (p.sequence written r).size = r.stop - written := by
  have hwritten := h.written_le
  have hlength := h.length_ge
  rw [Sequence.size, h.length_literals]
  show r.first - written + (r.stop - r.first) = r.stop - written
  omega

/-- A repeat that fits can be written. -/
theorem Fits.writable (h : p.Fits written r) : (p.sequence written r).Writable := by
  have hlength := h.length_ge
  have hoffset := h.offset_le
  refine ⟨?_, h.offset_pos, ?_⟩
  · show Sequence.minLength ≤ r.stop - r.first
    omega
  · show r.offset < 65536
    simp only [maxDistance] at hoffset
    omega

/-! ### Undoing a chain -/

theorem Covers.writable (h : p.Covers first sequences last) : ∀ s ∈ sequences, s.Writable := by
  induction h with
  | nil => simp
  | snoc _ hr ih =>
      intro s hs
      rcases List.mem_append.mp hs with hs | hs
      · exact ih s hs
      · rw [List.mem_singleton.mp hs]
        exact hr.writable

theorem Covers.last_le (h : p.Covers first sequences last) (hfirst : first ≤ p.text.size) :
    last ≤ p.text.size := by
  cases h with
  | nil => exact hfirst
  | snoc _ hr => exact Nat.le_trans (Nat.le_add_right _ _) hr.stop_le

/-- The sequences stand for the text that they cover. -/
theorem Covers.sizeAll_eq (h : p.Covers first sequences last) :
    first + Sequence.sizeAll sequences = last := by
  induction h with
  | nil => rfl
  | @snoc sequences written r _ hr ih =>
      have hwritten := hr.written_le
      have hlength := hr.length_ge
      rw [Sequence.sizeAll_append, Sequence.sizeAll, Sequence.sizeAll, hr.size_sequence]
      omega

theorem Covers.foldlM_extend? (h : p.Covers first sequences last) :
    sequences.foldlM Sequence.extend? (p.text.extract 0 first)
      = some (p.text.extract 0 last) := by
  induction h with
  | nil => rfl
  | snoc _ hr ih =>
      rw [List.foldlM_append, ih]
      simp only [List.foldlM_cons, List.foldlM_nil, bind, Option.bind, hr.extend?]
      rfl

theorem CoversAll.writable {b : Block} (h : p.CoversAll first b) : b.Writable := by
  obtain ⟨last, hcovers, -⟩ := h
  exact hcovers.writable

/-- A block that takes a passage to its end stands for as many bytes as are to be encoded. -/
theorem CoversAll.size_eq {b : Block} (h : p.CoversAll p.start b) : b.size = p.size := by
  obtain ⟨last, hcovers, htail⟩ := h
  have hsize := hcovers.sizeAll_eq
  have hlast := hcovers.last_le p.start_le
  rw [Block.size, htail, Array.length_toList, Array.size_extract, size]
  omega

/-- A block that takes the text from `first` to its end rebuilds it from there. -/
theorem CoversAll.extend? {b : Block} (h : p.CoversAll first b) (hfirst : first ≤ p.text.size) :
    Reading.extend? (p.text.extract 0 first) ⟨b.sequences, some b.tail⟩ = some p.text := by
  obtain ⟨last, hcovers, htail⟩ := h
  have hlast := hcovers.last_le hfirst
  have hwhole : p.text.extract 0 last ++ b.tail = p.text := by
    rw [append_list_eq, htail, Array.toArray_toList, Array.extract_append_extract,
      Nat.zero_min, Nat.max_eq_right hlast, Array.extract_size]
  exact Option.bind_eq_some_iff.mpr
    ⟨_, hcovers.foldlM_extend?, congrArg some hwhole⟩

/-- What is encoded of a passage is the input. -/
theorem size_of (dictionary input : Bytes) : (of dictionary input).size = input.size := by
  unfold of
  split
  · rfl
  · rw [size, Array.size_append, Nat.add_sub_cancel_left]

end Passage

/-! ### Frames -/

/-- The frame of `message` behind `dictionary`. -/
def frameOf (dictionary message : Bytes) : Bytes :=
  (Block.encode dictionary message).bytes.toArray

theorem Block.encode_writable (dictionary message : Bytes) :
    (encode dictionary message).Writable :=
  (Passage.of dictionary message).block_covers.writable

theorem size_frameOf_pos (dictionary message : Bytes) : 0 < (frameOf dictionary message).size := by
  rw [frameOf, List.size_toArray]
  exact List.length_pos_iff.mpr (Block.bytes_ne_nil _)

/-- **A frame stands for its message behind its dictionary.** -/
theorem frameText?_frameOf (dictionary message : Bytes) :
    frameText? dictionary (frameOf dictionary message) = some message := by
  have hpassage := fun p : Passage => p.block_covers.extend? p.start_le
  have hread := Reading.ofBytes_bytes (Block.encode_writable dictionary message)
  -- A dictionary that is too short to be used is text in front of an empty one.
  by_cases hshort : dictionary.size < minUsefulDictionary
  · have hof : Passage.of dictionary message = ⟨message, 0, Nat.zero_le _⟩ := if_pos hshort
    have hextend := hpassage (Passage.of dictionary message)
    have hempty : frameText? #[] (frameOf dictionary message) = some message := by
      rw [frameText?_eq_some_iff, frameOf, List.toList_toArray, hread, Array.empty_append]
      simpa [Block.encode, hof] using hextend
    have hfront := frameText?_append dictionary hempty
    rwa [Array.append_empty] at hfront
  · have hof : Passage.of dictionary message = ⟨dictionary ++ message, dictionary.size, by simp⟩ :=
      if_neg hshort
    have hextend := hpassage (Passage.of dictionary message)
    rw [frameText?_eq_some_iff, frameOf, List.toList_toArray, hread]
    simpa [Block.encode, hof] using hextend

/-- A block stands for as many bytes as its message has. -/
theorem Block.size_encode (dictionary message : Bytes) :
    (encode dictionary message).size = message.size :=
  (Passage.of dictionary message).block_covers.size_eq.trans
    (Passage.size_of dictionary message)

/-- A frame is no longer than its message, one byte for every 255, and two. -/
theorem size_frameOf_le (dictionary message : Bytes) :
    (frameOf dictionary message).size ≤ message.size + message.size / 255 + 2 := by
  have h := Block.length_bytes_le (Block.encode_writable dictionary message)
  rwa [Block.size_encode] at h

/-- **Encoding never runs out of room.** -/
theorem appendFrame_eq (dictionary message dst : Bytes) :
    appendFrame dictionary message dst
      = .done (frameOf dictionary message).size (dst ++ frameOf dictionary message) := by
  have hsize := size_frameOf_le dictionary message
  have hroom : (Block.encode dictionary message).bytes.length ≤ encodingRoom message.size := by
    rw [frameOf, List.size_toArray] at hsize
    unfold encodingRoom
    omega
  rw [appendFrame, if_pos hroom, append_list_eq]
  rfl

/-- **A frame decodes into any room that holds its message.** -/
theorem expandFrame_frameOf {message : Bytes} {room : Nat} (dictionary : Bytes)
    (h : message.size ≤ room) :
    expandFrame dictionary room (frameOf dictionary message) = .ok message :=
  expandFrame_eq_ok_iff.mpr ⟨frameText?_frameOf dictionary message, h⟩

/-- It does not decode into less room than that. -/
theorem expandFrame_frameOf_of_lt {message : Bytes} {room : Nat} (dictionary : Bytes)
    (h : room < message.size) :
    ∃ stuck, expandFrame dictionary room (frameOf dictionary message) = .error stuck := by
  cases hexpand : expandFrame dictionary room (frameOf dictionary message) with
  | error stuck => exact ⟨stuck, rfl⟩
  | ok plain =>
      obtain ⟨hplain, hle⟩ := expandFrame_eq_ok_iff.mp hexpand
      rw [frameText?_frameOf, Option.some.injEq] at hplain
      subst hplain
      omega

end WindowedLz4
