/-
How long a frame can get.

A frame is no longer than its message, one byte for every 255 of it, and two
(`size_frameOf_le`), whatever the search found to repeat and whatever stood before the
message.  `compressBound` grants sixteen where two would do, so it is a bound on single
blocks and on the frames of sessions alike, and the room that is set aside for an
encoding lies above it.  This is why an encoder never has to refuse a message.
-/
import WindowedLz4.Proofs.OneShot
import WindowedLz4.Proofs.Session.Frames
namespace WindowedLz4

/-! ### The bound -/

theorem compressBound_eq {size : Nat} (hpos : 0 < size) (hle : size ≤ maxInputSize) :
    compressBound size = size + size / 255 + 16 := by
  have hsize : ¬ (size = 0 ∨ maxInputSize < size) := by omega
  rw [compressBound, if_neg hsize]

/-- The bound grows with the input. -/
theorem compressBound_mono {size size' : Nat} (h : size ≤ size') (hle : size' ≤ maxInputSize) :
    compressBound size ≤ compressBound size' := by
  by_cases hzero : size = 0
  · have hnone : compressBound size = 0 := if_pos (Or.inl hzero)
    rw [hnone]
    exact Nat.zero_le _
  · have hpos : 0 < size := Nat.pos_of_ne_zero hzero
    rw [compressBound_eq hpos (by omega), compressBound_eq (by omega) hle]
    omega

/-- A frame keeps to the bound, whatever stands before its message. -/
theorem size_frameOf_le_compressBound {message : Bytes} (hpos : 0 < message.size)
    (hle : message.size ≤ maxInputSize) (dictionary : Bytes) :
    (frameOf dictionary message).size ≤ compressBound message.size := by
  have hsize := size_frameOf_le dictionary message
  rw [compressBound_eq hpos hle]
  omega

/-- No message of a session is longer than a block can hold. -/
theorem WindowConfig.maxMessageSize_clamped_le (config : WindowConfig) :
    config.clamped.maxMessageSize ≤ maxInputSize := by
  simp only [clamped, minMessageSize, WindowedLz4.maxMessageSize, maxInputSize]
  omega

/-! ### Sessions -/

namespace Compressor

variable {s : Compressor Lz4Context} {config : WindowConfig} {reach : Nat} {past pending : Bytes}

/-- The frame of the pending message keeps to the bound. -/
theorem Follows.process_le_compressBound (h : s.Follows config.clamped reach past pending)
    (hpos : 0 < s.pendingSize) (dst : Bytes) :
    ∃ (s' : Compressor Lz4Context) (frame : Bytes),
      s.process dst = .done frame.size (s', dst ++ frame) ∧
      frame.size ≤ compressBound s.pendingSize := by
  rw [h.pendingSize_eq] at hpos ⊢
  have hle : pending.size ≤ maxInputSize :=
    Nat.le_trans h.size_pending_le config.maxMessageSize_clamped_le
  obtain ⟨s', hprocess, -⟩ := h.process_frames hpos dst
  exact ⟨s', _, hprocess, size_frameOf_le_compressBound hpos hle _⟩

/-- Processing never fails for want of room. -/
theorem Follows.process_ne_encoderRejected (h : s.Follows config reach past pending) (dst : Bytes) :
    (s.process dst).verdict ≠ .error .encoderRejected := by
  intro hrejected
  by_cases hzero : pending.size = 0
  · rw [h.process_noData hzero] at hrejected
    exact Failure.noConfusion (Except.error.inj hrejected)
  · obtain ⟨s', hprocess, -⟩ := h.process_frames (Nat.pos_of_ne_zero hzero) dst
    simp [hprocess, Outcome.done] at hrejected

end Compressor

/--
**No frame is longer than the bound for its message.**

It is so for a single block with any dictionary, for a compressed source, and for the
frame of whatever is pending in a session, after any calls.  The bound lies within the
room that is set aside for an encoding, so that none is ever refused, and it grows with
the input.
-/
theorem compressBound_suffices :
    (∀ input : Bytes, 0 < input.size → input.size ≤ maxInputSize →
      (∀ dictionary dst, ∃ block : Bytes,
        appendFrame dictionary input dst = .done block.size (dst ++ block) ∧
        block.size ≤ compressBound input.size) ∧
      compressBound input.size ≤ encodingRoom input.size ∧
      ∀ dst, ∃ block : Bytes, compress dst input = .done block.size (dst ++ block) ∧
        block.size ≤ compressBound input.size) ∧
    (∀ config codec calls dst,
      let s := ((Compressor.withEncoder config (Lz4Context.ofConfig codec)).run calls).1
      (s.process dst).verdict ≠ .error .encoderRejected ∧
      (0 < s.pendingSize → ∃ (s' : Compressor Lz4Context) (frame : Bytes),
        s.process dst = .done frame.size (s', dst ++ frame) ∧
        frame.size ≤ compressBound s.pendingSize)) ∧
    (∀ dictionary message dst,
      (appendFrame dictionary message dst).verdict ≠ .error .encoderRejected) ∧
    ∀ size size', size ≤ size' → size' ≤ maxInputSize →
      compressBound size ≤ compressBound size' := by
  refine ⟨?_, ?_, ?_, ?_⟩
  · intro input hpos hle
    refine ⟨?_, compressBound_le_encodingRoom, ?_⟩
    · intro dictionary dst
      exact ⟨_, appendFrame_eq dictionary input dst, size_frameOf_le_compressBound hpos hle _⟩
    · intro dst
      exact ⟨_, compress_eq hpos hle dst, size_frameOf_le_compressBound hpos hle _⟩
  · intro config codec calls dst s
    have htranscribes : s.Transcribes config.clamped (min codec.dictionarySize maxDistance) _ :=
      Compressor.Transcribes.foldl_serveOne calls
        ⟨Compressor.withEncoder_follows config codec, rfl⟩
    refine ⟨htranscribes.follows.process_ne_encoderRejected dst, ?_⟩
    intro hpending
    exact htranscribes.follows.process_le_compressBound hpending dst
  · intro dictionary message dst hrejected
    rw [appendFrame_eq] at hrejected
    simp [Outcome.done] at hrejected
  · intro size size' h hle
    exact compressBound_mono h hle

/-- A source of 300 bytes keeps to its bound of 317, with a dictionary and without, and so does
the frame of three bytes that are pending. -/
theorem compressBound_suffices_runs :
    let input : Bytes := Array.replicate 300 7
    (0 < input.size ∧ input.size ≤ maxInputSize) ∧
    (∃ block : Bytes, appendFrame #[7, 7, 7, 7] input #[1] = .done block.size (#[1] ++ block) ∧
      block.size ≤ 317) ∧
    (∃ block : Bytes, compress #[] input = .done block.size (#[] ++ block) ∧ block.size ≤ 317) ∧
    ∃ (s' : Compressor Lz4Context) (frame : Bytes),
      ((Compressor.lz4 ⟨0, 0⟩).run [.write #[1, 2, 3]]).1.process #[]
        = .done frame.size (s', #[] ++ frame) ∧ frame.size ≤ 19 := by
  intro input
  have hsize : input.size = 300 := Array.size_replicate
  have hpos : 0 < input.size := by omega
  have hle : input.size ≤ maxInputSize := by rw [hsize]; decide
  have hbound : compressBound input.size = 317 := by rw [hsize]; decide
  obtain ⟨hblocks, hsessions, -⟩ := compressBound_suffices
  obtain ⟨hframes, -, hsources⟩ := hblocks input hpos hle
  rw [hbound] at hframes hsources
  exact ⟨⟨hpos, hle⟩, hframes #[7, 7, 7, 7] #[1], hsources #[],
    (hsessions ⟨0, 0⟩ (WindowConfig.clamped ⟨0, 0⟩) [.write #[1, 2, 3]] #[]).2 (by decide)⟩

end WindowedLz4
