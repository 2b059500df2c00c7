/-
Frames keep to the rules of the format.

The decoder of this library takes more than an encoder may write: a foreign decoder
counts on copies that end well before the end of the message, so that it may copy more than
it was asked to.  `Block.Conforms` states these rules, in the numbers of the format and
apart from the margins that the search keeps to.

Nothing is to be learned of the search but that it covers its passage.  The sequences of a
chain of repeats are told where they start by the lengths of those before them
(`Covers.sizeAll_eq`), and at that place each of them follows the rules since its repeat
fits (`Fits.conformsAt`).  A frame is read as the block it was written from, and the
dictionary of a session is the end of all that was processed.
-/
import WindowedLz4.Proofs.Session.Frames
namespace WindowedLz4

/-! ### The rules -/

/-- What the rules ask of a sequence whose literals start at `pos` of a message of `size` bytes
behind a dictionary of `before` bytes. -/
structure Sequence.ConformsAt (before size pos : Nat) (s : Sequence) : Prop where
  length_ge : 4 ≤ s.length
  offset_pos : 0 < s.offset
  /-- The copy is made from the dictionary and the message before it. -/
  offset_le : s.offset ≤ min 65535 (before + (pos + s.literals.length))
  /-- The copy starts at least twelve bytes before the end. -/
  start_le : pos + s.literals.length + 12 ≤ size

/-- The sequences follow the rules, the first of them at `pos`. -/
def Sequence.Conform (before size : Nat) : Nat → List Sequence → Prop
  | _, [] => True
  | pos, s :: rest => s.ConformsAt before size pos ∧ Conform before size (pos + s.size) rest

/-- The block of a message of `size` bytes behind a dictionary of `before` bytes follows the
rules. -/
structure Block.Conforms (before size : Nat) (b : Block) : Prop where
  size_eq : b.size = size
  sequences : Sequence.Conform before size 0 b.sequences
  /-- At least five literals follow the last copy. -/
  tail_ge : b.sequences ≠ [] → 5 ≤ b.tail.length
  /-- A short message is written as literals. -/
  short : size < 13 → b.sequences = []

/-- The frame is that of a block that follows the rules. -/
def FrameConforms (before size : Nat) (frame : Bytes) : Prop :=
  ∃ b, Block.ofBytes? frame.toList = some b ∧ b.Conforms before size

namespace Sequence

variable {before size : Nat}

/-- A sequence that is put behind others starts where they stop. -/
theorem Conform.concat {s : Sequence} {sequences : List Sequence} :
    ∀ {pos : Nat}, Conform before size pos sequences →
      s.ConformsAt before size (pos + sizeAll sequences) →
      Conform before size pos (sequences ++ [s]) := by
  induction sequences with
  | nil =>
      intro pos _ hs
      exact ⟨hs, trivial⟩
  | cons first rest ih =>
      intro pos h hs
      refine ⟨h.1, ih h.2 ?_⟩
      rwa [Nat.add_assoc]

/-- The rules are the weaker the more stands before the message. -/
theorem Conform.mono {before' : Nat} (hle : before ≤ before') {sequences : List Sequence} :
    ∀ {pos : Nat}, Conform before size pos sequences → Conform before' size pos sequences := by
  induction sequences with
  | nil => intro pos h; exact h
  | cons s rest ih =>
      intro pos h
      obtain ⟨hs, hrest⟩ := h
      have hoffset := hs.offset_le
      exact ⟨⟨hs.length_ge, hs.offset_pos, by omega, hs.start_le⟩, ih hrest⟩

end Sequence

theorem Block.Conforms.mono {before before' size : Nat} {b : Block}
    (h : b.Conforms before size) (hle : before ≤ before') : b.Conforms before' size :=
  ⟨h.size_eq, h.sequences.mono hle, h.tail_ge, h.short⟩

/-! ### What the search finds follows them -/

namespace Passage

variable {p : Passage} {written first last : Nat} {r : Repeat} {sequences : List Sequence}

/-- A repeat that fits follows the rules where it stands. -/
theorem Fits.conformsAt (h : p.Fits written r) (hstart : p.start ≤ written) :
    (p.sequence written r).ConformsAt p.start p.size (written - p.start) := by
  have hwritten := h.written_le
  have hlength := h.length_ge
  have hoffset := h.offset_le
  have hback := h.offset_le_first
  have hfirst := h.first_le
  have hpos : written - p.start + (p.sequence written r).literals.length = r.first - p.start := by
    rw [h.length_literals]
    omega
  simp only [Sequence.minLength, searchMargin, maxDistance] at hlength hfirst hoffset
  refine ⟨?_, h.offset_pos, ?_, ?_⟩
  · show 4 ≤ r.stop - r.first
    omega
  · rw [hpos]
    show r.offset ≤ _
    omega
  · rw [hpos, size]
    omega

theorem Covers.conform (h : p.Covers p.start sequences last) :
    Sequence.Conform p.start p.size 0 sequences := by
  induction h with
  | nil => trivial
  | @snoc sequences written r hcovers hr ih =>
      have hsize := hcovers.sizeAll_eq
      refine ih.concat ?_
      rw [show 0 + Sequence.sizeAll sequences = written - p.start by omega]
      exact hr.conformsAt (by omega)

/-- The last repeat of a chain keeps its distance from the end of the text. -/
theorem Covers.last_add_le (h : p.Covers first sequences last) (hne : sequences ≠ []) :
    last + repeatMargin ≤ p.text.size := by
  cases h with
  | nil => exact absurd rfl hne
  | snoc _ hr => exact hr.stop_le

/-- **The block of a passage follows the rules.** -/
theorem block_conforms (p : Passage) : p.block.Conforms p.start p.size := by
  have hsize := p.block_covers.size_eq
  obtain ⟨last, hcovers, htail⟩ := p.block_covers
  refine ⟨hsize, hcovers.conform, ?_, sequences_block_eq_nil⟩
  intro hne
  have hlast := hcovers.last_add_le hne
  rw [repeatMargin] at hlast
  rw [htail, Array.length_toList, Array.size_extract]
  omega

/-- No more of a passage is dictionary than there was. -/
theorem start_of_le (dictionary input : Bytes) :
    (of dictionary input).start ≤ dictionary.size := by
  unfold of
  split
  · exact Nat.zero_le _
  · exact Nat.le_refl _

end Passage

/-- The block of an input follows the rules behind its dictionary, used or not. -/
theorem Block.encode_conforms (dictionary input : Bytes) :
    (encode dictionary input).Conforms dictionary.size input.size := by
  have hconforms := (Passage.of dictionary input).block_conforms
  rw [Passage.size_of] at hconforms
  exact hconforms.mono (Passage.start_of_le dictionary input)

/-- **A frame follows the rules behind its dictionary.** -/
theorem frameConforms_frameOf (dictionary message : Bytes) :
    FrameConforms dictionary.size message.size (frameOf dictionary message) := by
  refine ⟨Block.encode dictionary message, ?_, Block.encode_conforms dictionary message⟩
  rw [frameOf, List.toList_toArray, Block.ofBytes?,
    Reading.ofBytes_bytes (Block.encode_writable dictionary message)]
  rfl

/-! ### Sessions -/

/-- The frames of messages that follow one another follow the rules, each behind as much as the
dictionaries reach back to. -/
theorem exists_frameConforms_of_framesOf (reach : Nat) (before after : List Bytes)
    (message : Bytes) :
    ∃ frame, (framesOf reach #[] (before ++ message :: after))[before.length]? = some frame ∧
      FrameConforms (min reach (joined before).size) message.size frame := by
  refine ⟨frameOf (lastBytes reach (joined before)) message, ?_, ?_⟩
  · rw [← List.head?_drop, framesOf_drop, List.take_left, List.drop_left, Array.empty_append]
    rfl
  · rw [← size_lastBytes]
    exact frameConforms_frameOf _ message

/-- The frame of the pending message follows the rules behind the end of the past. -/
theorem Compressor.Follows.process_conforms {s : Compressor Lz4Context} {config : WindowConfig}
    {reach : Nat} {past pending : Bytes} (h : s.Follows config reach past pending)
    (hpos : 0 < s.pendingSize) (dst : Bytes) :
    ∃ (s' : Compressor Lz4Context) (frame : Bytes),
      s.process dst = .done frame.size (s', dst ++ frame) ∧
      FrameConforms (min reach past.size) s.pendingSize frame := by
  rw [h.pendingSize_eq] at hpos ⊢
  obtain ⟨s', hprocess, -⟩ := h.process_frames hpos dst
  rw [← size_lastBytes]
  exact ⟨s', _, hprocess, frameConforms_frameOf _ pending⟩

/--
**All that is emitted follows the rules of the format.**

The frame of an input follows them behind any dictionary.  In a session they hold behind as
many of the bytes processed before as the codec reaches back to, for the frames that any
calls emitted and for the frame of what they left pending.  So no frame refers to anything
older.
-/
theorem frames_conform :
    (∀ dictionary input dst : Bytes, ∃ frame : Bytes,
      appendFrame dictionary input dst = .done frame.size (dst ++ frame) ∧
      FrameConforms dictionary.size input.size frame) ∧
    ∀ (config codec : WindowConfig) (calls : List Compressor.Call),
      let run := (Compressor.withEncoder config (Lz4Context.ofConfig codec)).run calls
      let reach := min codec.dictionarySize maxDistance
      (∀ before message after, run.2.messages = before ++ message :: after →
        ∃ frame, run.2.frames[before.length]? = some frame ∧
          FrameConforms (min reach (joined before).size) message.size frame) ∧
      (0 < run.1.pendingSize → ∀ dst, ∃ (s' : Compressor Lz4Context) (frame : Bytes),
        run.1.process dst = .done frame.size (s', dst ++ frame) ∧
        FrameConforms (min reach (joined run.2.messages).size) run.1.pendingSize frame) := by
  refine ⟨?_, ?_⟩
  · intro dictionary input dst
    exact ⟨_, appendFrame_eq dictionary input dst, frameConforms_frameOf dictionary input⟩
  · intro config codec calls run reach
    have htranscribes : run.1.Transcribes config.clamped reach run.2 :=
      Compressor.Transcribes.foldl_serveOne calls
        ⟨Compressor.withEncoder_follows config codec, rfl⟩
    refine ⟨?_, htranscribes.follows.process_conforms⟩
    intro before message after hmessages
    rw [htranscribes.frames_eq, hmessages]
    exact exists_frameConforms_of_framesOf reach before after message

/-- A session that reaches back two bytes emits its second frame, and the frame of the byte that
is then pending, without referring to what is older. -/
theorem frames_conform_pending :
    let run := (Compressor.withEncoder ⟨0, 0⟩ (Lz4Context.ofConfig ⟨2, 0⟩)).run
      [.compressMessage #[1, 2, 3] #[], .compressMessage #[1, 2] #[], .write #[3]]
    (run.2.messages = [#[1, 2, 3]] ++ #[1, 2] :: [] ∧ 0 < run.1.pendingSize) ∧
    (∃ frame, run.2.frames[1]? = some frame ∧ FrameConforms 2 2 frame) ∧
    ∃ (s' : Compressor Lz4Context) (frame : Bytes),
      run.1.process #[9] = .done frame.size (s', #[9] ++ frame) ∧ FrameConforms 2 1 frame := by
  intro run
  have hmessages : run.2.messages = [#[1, 2, 3]] ++ #[1, 2] :: [] := by decide +kernel
  have hpending : run.1.pendingSize = 1 := by decide +kernel
  have hpos : 0 < run.1.pendingSize := by rw [hpending]; decide
  obtain ⟨hframes, hprocess⟩ := frames_conform.2 ⟨0, 0⟩ ⟨2, 0⟩
    [.compressMessage #[1, 2, 3] #[], .compressMessage #[1, 2] #[], .write #[3]]
  have hsecond := hframes _ _ _ hmessages
  have hlast := hprocess hpos #[9]
  rw [show min (min 2 maxDistance) (joined [#[1, 2, 3]]).size = 2 by decide] at hsecond
  rw [hmessages, hpending,
    show min (min 2 maxDistance) (joined ([#[1, 2, 3]] ++ #[1, 2] :: [])).size = 2 by decide]
    at hlast
  exact ⟨⟨hmessages, hpos⟩, hsecond, hlast⟩

end WindowedLz4
