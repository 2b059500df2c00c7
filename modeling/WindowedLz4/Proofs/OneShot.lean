/-
Single blocks: what is compressed decompresses into any room that holds it.

A single block is a frame without a dictionary, so the encoding side is
`appendFrame_eq` and the decoding side is `expandFrame_frameOf`.  What is left is
the order of the checks, and the cap on the room that `decompress` offers.

The room does nothing but compare (`decompressInto_eq`), and a block never stands for
more than 255 times its length, so the cap hides no room that a block could use
(`decompressInto_min`).  `decompress` is therefore `decompressInto` with the spare room,
appended (`decompress_eq`), and everything about blocks is proved of `decompressInto`.

Compression only ever appends.  A block therefore stands in its slice of the
destination whatever else is compressed into it before and after, and it decodes
from that slice.
-/
import WindowedLz4.OneShot
import WindowedLz4.Proofs.Block.RoundTrip
namespace WindowedLz4

/-! ### Compressing -/

variable {src : Bytes}

theorem compress_eq (hpos : 0 < src.size) (hle : src.size ≤ maxInputSize) (dst : Bytes) :
    compress dst src = .done (frameOf #[] src).size (dst ++ frameOf #[] src) := by
  rw [compress, if_neg (Nat.ne_of_gt hpos), if_neg (Nat.not_lt.mpr hle), appendFrame_eq]

/-- Compresses the sources one after another into one destination. -/
def compressAll (dst : Bytes) (sources : List Bytes) : Bytes :=
  sources.foldl (fun dst src => (compress dst src).after) dst

/-- Whatever the source, compression only appends. -/
theorem exists_compress_eq_append (dst src : Bytes) :
    ∃ added : Bytes, (compress dst src).after = dst ++ added := by
  rcases Nat.eq_zero_or_pos src.size with hzero | hpos
  · exact ⟨#[], by rw [compress, if_pos hzero, Array.append_empty]; rfl⟩
  · rcases Nat.lt_or_ge maxInputSize src.size with hlt | hle
    · refine ⟨#[], ?_⟩
      rw [compress, if_neg (Nat.ne_of_gt hpos), if_pos hlt, Array.append_empty]
      rfl
    · exact ⟨frameOf #[] src, by rw [compress_eq hpos hle]; rfl⟩

theorem exists_compressAll_eq_append (sources : List Bytes) :
    ∀ dst : Bytes, ∃ added : Bytes, compressAll dst sources = dst ++ added := by
  induction sources with
  | nil => intro dst; exact ⟨#[], by rw [Array.append_empty]; rfl⟩
  | cons src rest ih =>
      intro dst
      obtain ⟨first, hfirst⟩ := exists_compress_eq_append dst src
      obtain ⟨added, hadded⟩ := ih (compress dst src).after
      refine ⟨first ++ added, ?_⟩
      rw [← Array.append_assoc, ← hfirst]
      exact hadded

/-- The block of a source stands in its slice, whatever comes before and after it. -/
theorem extract_compressAll (hpos : 0 < src.size) (hle : src.size ≤ maxInputSize)
    (dst : Bytes) (before after : List Bytes) :
    (compressAll dst (before ++ src :: after)).extract (compressAll dst before).size
        ((compressAll dst before).size + (frameOf #[] src).size)
      = frameOf #[] src := by
  have hsplit : compressAll dst (before ++ src :: after)
      = compressAll (compressAll dst before ++ frameOf #[] src) after := by
    have hsrc : (compress (compressAll dst before) src).after
        = compressAll dst before ++ frameOf #[] src := by rw [compress_eq hpos hle]; rfl
    rw [← hsrc, compressAll, List.foldl_append, List.foldl_cons]
    rfl
  obtain ⟨added, hadded⟩ := exists_compressAll_eq_append after
    (compressAll dst before ++ frameOf #[] src)
  rw [hsplit, hadded, Array.append_assoc, Array.extract_append,
    Array.extract_empty_of_size_le_start (Nat.le_refl _), Array.empty_append, Nat.sub_self,
    Nat.add_sub_cancel_left, Array.extract_append, Array.extract_size, Nat.sub_self,
    Array.extract_empty_of_stop_le_start (by omega), Array.append_empty]

/-! ### Decompressing -/

theorem decompressInto_zero {block : Bytes} (hblock : 0 < block.size) :
    decompressInto 0 block = .error (.capacity 0) := by
  rw [decompressInto, if_neg (Nat.ne_of_gt hblock), if_pos rfl]

/-- The room only compares: a block decodes exactly if it has a meaning that is no longer. -/
theorem decompressInto_eq {room : Nat} (hsrc : 0 < src.size) (hroom : 0 < room) :
    decompressInto room src
      = match frameText? #[] src with
        | some plain => if plain.size ≤ room then .ok plain else .error .malformed
        | none => .error .malformed := by
  rw [decompressInto, if_neg (Nat.ne_of_gt hsrc), if_neg (Nat.ne_of_gt hroom)]
  cases hexpand : expandFrame #[] room src with
  | ok plain =>
      obtain ⟨htext, hfits⟩ := expandFrame_eq_ok_iff.mp hexpand
      rw [htext]
      exact (if_pos hfits).symm
  | error stuck =>
      cases htext : frameText? #[] src with
      | none => rfl
      | some plain =>
          have hlong : ¬ plain.size ≤ room := by
            intro hfits
            have hok := expandFrame_eq_ok_iff.mpr ⟨htext, hfits⟩
            simp [hexpand] at hok
          exact (if_neg hlong).symm

theorem size_le_of_decompressInto {room : Nat} {plain : Bytes}
    (h : decompressInto room src = .ok plain) : plain.size ≤ room := by
  unfold decompressInto at h
  split at h
  · rw [← Except.ok.inj h]
    exact Nat.zero_le room
  · split at h
    · simp at h
    · split at h
      · next plain' hexpand =>
        rw [← Except.ok.inj h]
        exact size_le_of_expandFrame hexpand
      · simp at h

/-- Room beyond what a block of this length can need changes nothing. -/
theorem decompressInto_min {room : Nat} (hword : min room (src.size * 255) ≤ maxWord) :
    decompressInto (min room (maxPlainSize src.size)) src = decompressInto room src := by
  rcases Nat.eq_zero_or_pos src.size with hsrc | hsrc
  · rw [decompressInto, decompressInto, if_pos hsrc, if_pos hsrc]
  rcases Nat.eq_zero_or_pos room with rfl | hroom
  · rw [Nat.zero_min]
  have hoffered : 0 < min room (maxPlainSize src.size) := by
    simp only [maxPlainSize, maxWord, UInt64.size]
    omega
  rw [decompressInto_eq hsrc hoffered, decompressInto_eq hsrc hroom]
  cases htext : frameText? #[] src with
  | none => rfl
  | some plain =>
      have hsize := size_le_of_frameText? htext
      have hsame : plain.size ≤ min room (maxPlainSize src.size) ↔ plain.size ≤ room := by
        rw [maxPlainSize]
        omega
      simp only [hsame]

/-- Appending to a vector goes by its spare room, and by nothing else. -/
theorem decompress_eq (dst src : Bytes) {spare : Nat}
    (hword : min spare (src.size * 255) ≤ maxWord) :
    decompress dst spare src
      = match decompressInto spare src with
        | .ok plain => .done plain.size (dst ++ plain)
        | .error failure => .refused failure dst := by
  unfold decompress
  rcases Nat.eq_zero_or_pos src.size with hsrc | hsrc
  · rw [if_pos hsrc, decompressInto, if_pos hsrc]
    exact congrArg (Outcome.done 0) Array.append_empty.symm
  rcases Nat.eq_zero_or_pos spare with rfl | hspare
  · rw [if_neg (Nat.ne_of_gt hsrc), if_pos rfl, decompressInto_zero hsrc]
  · rw [← decompressInto_min hword, if_neg (Nat.ne_of_gt hsrc)]
    exact if_neg (Nat.ne_of_gt hspare)

/-! ### Decompressing what was compressed -/

/-- A block decodes into any room that holds its source. -/
theorem decompressInto_of_le (hpos : 0 < src.size) {room : Nat} (hroom : src.size ≤ room) :
    decompressInto room (frameOf #[] src) = .ok src := by
  rw [decompressInto, if_neg (Nat.ne_of_gt (size_frameOf_pos _ _)), if_neg (by omega),
    expandFrame_frameOf #[] hroom]

/-- A block does not decode into less room than that. -/
theorem decompressInto_of_lt {room : Nat} (hroom : 0 < room) (hlt : room < src.size) :
    decompressInto room (frameOf #[] src) = .error .malformed := by
  obtain ⟨stuck, hexpand⟩ := expandFrame_frameOf_of_lt #[] hlt
  rw [decompressInto, if_neg (Nat.ne_of_gt (size_frameOf_pos _ _)), if_neg (by omega), hexpand]

/-- What a block can need fits a word, whatever the room. -/
private theorem min_frameOf_le_maxWord (hle : src.size ≤ maxInputSize) (spare : Nat) :
    min spare ((frameOf #[] src).size * 255) ≤ maxWord := by
  have hsize := size_frameOf_le #[] src
  simp only [maxInputSize, maxWord, UInt64.size] at *
  omega

theorem decompress_of_le (hpos : 0 < src.size) (hle : src.size ≤ maxInputSize) (dst : Bytes)
    {spare : Nat} (hspare : src.size ≤ spare) :
    decompress dst spare (frameOf #[] src) = .done src.size (dst ++ src) := by
  rw [decompress_eq dst _ (min_frameOf_le_maxWord hle spare), decompressInto_of_le hpos hspare]

theorem decompress_of_lt (hle : src.size ≤ maxInputSize) (dst : Bytes) {spare : Nat}
    (hspare : 0 < spare) (hlt : spare < src.size) :
    decompress dst spare (frameOf #[] src) = .refused .malformed dst := by
  rw [decompress_eq dst _ (min_frameOf_le_maxWord hle spare), decompressInto_of_lt hspare hlt]

theorem decompress_zero {block : Bytes} (hblock : 0 < block.size) (dst : Bytes) :
    decompress dst 0 block = .refused (.capacity 0) dst := by
  rw [decompress, if_neg (Nat.ne_of_gt hblock), if_pos rfl]

/--
**What is compressed decompresses, into any room that holds it and into no other.**

A source has one block, which is appended to whatever the destination holds.  It
decodes to the source if the room is at least as long as the source, is malformed in
less, and asks for room where there is none; appending to a vector goes by its spare
room in the same way and leaves the vector alone when it fails.  And the block stands
in its slice of the destination when other sources are compressed into it before and
after, so that blocks decode one by one from their slices.
-/
theorem compress_decompress (src : Bytes) (hpos : 0 < src.size) (hle : src.size ≤ maxInputSize) :
    ∃ block : Bytes, 0 < block.size ∧
      (∀ dst, compress dst src = .done block.size (dst ++ block)) ∧
      (∀ room, src.size ≤ room → decompressInto room block = .ok src) ∧
      (∀ room, 0 < room → room < src.size → decompressInto room block = .error .malformed) ∧
      decompressInto 0 block = .error (.capacity 0) ∧
      (∀ dst spare, src.size ≤ spare →
        decompress dst spare block = .done src.size (dst ++ src)) ∧
      (∀ dst spare, 0 < spare → spare < src.size →
        decompress dst spare block = .refused .malformed dst) ∧
      (∀ dst, decompress dst 0 block = .refused (.capacity 0) dst) ∧
      ∀ dst before after,
        (compressAll dst (before ++ src :: after)).extract (compressAll dst before).size
            ((compressAll dst before).size + block.size) = block := by
  refine ⟨frameOf #[] src, size_frameOf_pos _ _, ?_, ?_, ?_, ?_, ?_, ?_, ?_, ?_⟩
  · exact compress_eq hpos hle
  · exact fun room hroom => decompressInto_of_le hpos hroom
  · exact fun room hroom hlt => decompressInto_of_lt hroom hlt
  · exact decompressInto_zero (size_frameOf_pos _ _)
  · exact fun dst spare hspare => decompress_of_le hpos hle dst hspare
  · exact fun dst spare hspare hlt => decompress_of_lt hle dst hspare hlt
  · exact fun dst => decompress_zero (size_frameOf_pos _ _) dst
  · exact extract_compressAll hpos hle

/-- A source of three bytes decodes into three bytes and not into two. -/
theorem compress_decompress_three :
    (0 < (#[7, 7, 9] : Bytes).size ∧ (#[7, 7, 9] : Bytes).size ≤ maxInputSize) ∧
    ∃ block : Bytes, 0 < block.size ∧
      compress #[1] #[7, 7, 9] = .done block.size (#[1] ++ block) ∧
      decompressInto 3 block = .ok #[7, 7, 9] ∧
      decompressInto 2 block = .error .malformed ∧
      decompress #[5] 0 block = .refused (.capacity 0) #[5] := by
  refine ⟨by decide, ?_⟩
  obtain ⟨block, hblock, hcompress, hle, hlt, -, -, -, hzero, -⟩ :=
    compress_decompress #[7, 7, 9] (by decide) (by decide)
  exact ⟨block, hblock, hcompress #[1], hle 3 (by decide), hlt 2 (by decide) (by decide),
    hzero #[5]⟩

/--
**The cap on the room that is offered never shows.**

Appending to a vector with `spare` bytes of room ends as decoding into a slice of `spare`
bytes does, for valid blocks and for garbage: with the same plaintext behind what the
vector holds, or with the same failure and the vector as it was.  The vector stays within
its room.  And a block is called malformed only if it has no meaning, or one that is
longer than all the room there is.  Of the room nothing is assumed but that a word can
hold it, as it holds every size.
-/
theorem decompress_uncapped (dst src : Bytes) {spare : Nat} (hword : spare ≤ maxWord) :
    decompress dst spare src
      = (match decompressInto spare src with
        | .ok plain => .done plain.size (dst ++ plain)
        | .error failure => .refused failure dst) ∧
    (decompress dst spare src).after.size ≤ dst.size + spare ∧
    ((decompress dst spare src).verdict = .error .malformed ↔
      0 < src.size ∧ 0 < spare ∧
        ∀ plain, frameText? #[] src = some plain → spare < plain.size) := by
  have hmin : min spare (src.size * 255) ≤ maxWord := Nat.le_trans (Nat.min_le_left _ _) hword
  refine ⟨decompress_eq dst src hmin, ?_, ?_⟩
  · rw [decompress_eq dst src hmin]
    cases hinto : decompressInto spare src with
    | error failure => exact Nat.le_add_right _ _
    | ok plain =>
        have hsize := size_le_of_decompressInto hinto
        show (dst ++ plain).size ≤ dst.size + spare
        rw [Array.size_append]
        omega
  · rcases Nat.eq_zero_or_pos src.size with hsrc | hsrc
    · simp [decompress, hsrc, Outcome.done]
    rcases Nat.eq_zero_or_pos spare with rfl | hspare
    · simp [decompress_zero hsrc, Outcome.refused]
    rw [decompress_eq dst src hmin, decompressInto_eq hsrc hspare]
    cases htext : frameText? #[] src with
    | none => simp [Outcome.refused, hsrc, hspare]
    | some plain =>
        by_cases hfits : plain.size ≤ spare
        · simp [hfits, Outcome.done, Nat.not_lt.mpr hfits]
        · simp [hfits, Outcome.refused, hsrc, hspare, Nat.lt_of_not_le hfits]

/-- A block of seven bytes that is mostly a run stands for 23 bytes.  They go into a vector with
all the room there can be, although no more than 1785 bytes are offered, and not into 22. -/
theorem decompress_uncapped_run :
    let src : Bytes := #[0x1F, 7, 1, 0, 2, 0x10, 9]
    let plain : Bytes := (Array.replicate 22 7).push 9
    (maxWord ≤ maxWord ∧ 22 ≤ maxWord) ∧
    decompress #[5] maxWord src = .done 23 (#[5] ++ plain) ∧
    (decompress #[5] 22 src).verdict = .error .malformed := by
  intro src plain
  have hall : maxWord ≤ maxWord := Nat.le_refl _
  have hshort : 22 ≤ maxWord := by decide
  have htext : frameText? #[] src = some plain := by decide +kernel
  obtain ⟨hdone, -, -⟩ := decompress_uncapped #[5] src hall
  obtain ⟨-, -, hmalformed⟩ := decompress_uncapped #[5] src hshort
  have hinto : decompressInto maxWord src = .ok plain := by
    rw [decompressInto_eq (by decide) (by decide), htext]
    exact if_pos (by decide)
  rw [hinto] at hdone
  refine ⟨⟨hall, hshort⟩, hdone, hmalformed.mpr ⟨by decide, by decide, fun plain' hplain' => ?_⟩⟩
  rw [htext, Option.some.injEq] at hplain'
  rw [← hplain']
  decide

end WindowedLz4
