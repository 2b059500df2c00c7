/-
Frames that were cut short on their way.

A block does not say how long it is, so a receiver cannot know that the end of a frame is
missing.  What it can rely on is that a part of a frame never becomes another message: it
is refused, or it stands for less of the same (`ProperPrefix.frameText?`).  `CutsShort` is
that law for two answers, and it is the same read from the other side: bytes that are put
behind a frame make it malformed, or they go on with its message.

The law needs nothing of a session.  In whatever state it is, a session answers a frame as
`messageFor` says; and a session that is out of order refuses the frame and its part alike.
-/
import WindowedLz4.Proofs.Block.Cut
import WindowedLz4.Proofs.OneShot
import WindowedLz4.Proofs.Session.Rejections
namespace WindowedLz4

/-! ### Answers to a part and to the whole -/

/-- Where both a part of a frame and the frame are answered by plaintext, the first of the two is
a proper prefix of the second.  Where just one of them is, the other is malformed. -/
def CutsShort : Except Failure Bytes → Except Failure Bytes → Prop
  | .ok part, .ok whole => ProperPrefix part whole
  | .ok _, .error failure => failure = .malformed
  | .error failure, .ok _ => failure = .malformed
  | .error _, .error _ => True

/-- An answer that has nothing to say of a frame but what it stands for behind a dictionary. -/
def Tells (dictionary frame : Bytes) : Except Failure Bytes → Prop
  | .ok plain => frameText? dictionary frame = some plain
  | .error failure => failure = .malformed

section Answers

variable {dictionary cut frame : Bytes}

theorem ProperPrefix.size_pos (h : ProperPrefix cut frame) : 0 < frame.size := by
  obtain ⟨rest, hrest, rfl⟩ := h
  rw [Array.size_append]
  omega

/-- Answers that tell what a part and the whole of a frame stand for keep to the law. -/
theorem Tells.cutsShort {part whole : Except Failure Bytes} (hpart : Tells dictionary cut part)
    (hwhole : Tells dictionary frame whole) (hcut : ProperPrefix cut frame) :
    CutsShort part whole := by
  cases part with
  | ok part =>
      cases whole with
      | ok whole => exact hcut.frameText? hpart hwhole
      | error failure => exact hwhole
  | error failure =>
      cases whole with
      | ok whole => exact hpart
      | error failure' => exact True.intro

theorem tells_messageOf (hframe : 0 < frame.size) (reach room : Nat) (past : Bytes) :
    Tells (lastBytes reach past) frame (messageOf reach room past frame) := by
  cases hanswer : messageOf reach room past frame with
  | ok plain => exact (expandFrame_eq_ok_iff.mp (messageOf_eq_ok hanswer).2.1).1
  | error failure =>
      obtain ⟨hzero, -⟩ | ⟨-, hmalformed, -⟩ := messageOf_eq_error hanswer
      · omega
      · exact hmalformed

theorem tells_decompressInto (hframe : 0 < frame.size) {room : Nat} (hroom : 0 < room) :
    Tells #[] frame (decompressInto room frame) := by
  rw [decompressInto_eq hframe hroom]
  cases htext : frameText? #[] frame with
  | none => exact rfl
  | some plain =>
      by_cases hfits : plain.size ≤ room
      · simp only [if_pos hfits]
        exact htext
      · simp only [if_neg hfits]
        exact rfl

theorem cutsShort_decompressInto (hpos : 0 < cut.size) (hcut : ProperPrefix cut frame)
    (room : Nat) : CutsShort (decompressInto room cut) (decompressInto room frame) := by
  rcases Nat.eq_zero_or_pos room with rfl | hroom
  · rw [decompressInto_zero hpos, decompressInto_zero hcut.size_pos]
    exact True.intro
  · have htells := tells_decompressInto hpos hroom
    exact htells.cutsShort (tells_decompressInto hcut.size_pos hroom) hcut

end Answers

namespace Decompressor

/-! ### Any state -/

/-- What a session answers to a frame, in whatever state it is. -/
def messageFor (s : Decompressor Lz4Context) (frame : Bytes) : Except Failure Bytes :=
  if frame.size = 0 then .error .noData
  else if s.config.dictionarySize ≤ s.cursor then .error .cursorOutsideDictionary
  else if s.config.ringCapacity < s.cursor + s.config.maxMessageSize then
    .error .regionBeyondWindow
  else
    messageOf s.decoder.history.limit s.config.maxMessageSize
      (s.decoder.history.tail ++ s.window.history) frame

/-- A commit inside the ring copies out what stands ahead of the cursor. -/
theorem commit_appends {δ : Type} [Decoder δ] (s : Decompressor δ) {size : Nat}
    (hfit : s.window.cursor + size ≤ s.config.ringCapacity) (frameSize : Nat) (dst : Bytes) :
    (s.commit frameSize size dst).Appends dst (.ok (s.window.ahead size)) := by
  have hword : s.config.ringCapacity < UInt64.size := by
    simp only [WindowConfig.ringCapacity, maxWord, UInt64.size]
    omega
  obtain ⟨window, hadvance, -⟩ := Ring.advance_eq hword hfit
  unfold commit
  simp only [Ring.message_eq hword hfit, hadvance]
  exact ⟨congrArg Except.ok (Ring.size_ahead hfit).symm, rfl⟩

/-- A session that is in order tells the message of a frame. -/
private theorem process_messageOf_of_ready (s : Decompressor Lz4Context)
    (hcursor : s.cursor < s.config.dictionarySize)
    (hregion : s.window.cursor + s.config.maxMessageSize ≤ s.config.ringCapacity) {frame : Bytes}
    (hframe : 0 < frame.size) (dst : Bytes) :
    (s.process dst frame).Appends dst
      (messageOf s.decoder.history.limit s.config.maxMessageSize
        (s.decoder.history.tail ++ s.window.history) frame) := by
  have hinside : s.window.isConsistent = true := decide_eq_true hcursor
  have hdecode := s.decode_eq hregion frame
  rw [messageOf, if_neg (Nat.ne_of_gt hframe), ← History.dictionary_eq]
  cases hexpand : expandFrame (s.decoder.history.dictionary s.window.history).1
      s.config.maxMessageSize frame with
  | error stuck =>
      rw [hexpand] at hdecode
      rw [process_eq hinside hframe dst hdecode]
      exact ⟨rfl, Array.append_empty.symm⟩
  | ok plain =>
      rw [hexpand] at hdecode
      have hlimit := size_le_of_expandFrame hexpand
      have hahead : (s.window.put s.window.cursor plain).ahead plain.size = plain :=
        Ring.ahead_put (by omega)
      have hcommit := commit_appends
        { s with decoder := s.recalled, window := s.window.put s.window.cursor plain }
        (show s.window.cursor + plain.size ≤ s.config.ringCapacity by omega) frame.size dst
      rw [hahead] at hcommit
      cases hsize : plain.size with
      | zero =>
          simp only [hsize] at hdecode
          rw [process_eq hinside hframe dst hdecode]
          simp only [hsize, if_pos]
          exact ⟨rfl, Array.append_empty.symm⟩
      | succ size =>
          simp only [hsize] at hdecode
          rw [hsize] at hcommit
          rw [process_eq hinside hframe dst hdecode]
          simp only [hsize, Nat.succ_ne_zero, if_false]
          exact hcommit

/-- **A session answers a frame as `messageFor` says**, in whatever state it is. -/
theorem process_messageFor (s : Decompressor Lz4Context) (dst frame : Bytes) :
    (s.process dst frame).Appends dst (s.messageFor frame) := by
  by_cases hframe : frame.size = 0
  · rw [process_noData s hframe, messageFor, if_pos hframe]
    exact ⟨rfl, Array.append_empty.symm⟩
  rw [messageFor, if_neg hframe]
  by_cases hcursor : s.config.dictionarySize ≤ s.cursor
  · have houtside : s.window.isConsistent = false := decide_eq_false (Nat.not_lt.mpr hcursor)
    rw [process, if_neg hframe, houtside, if_pos hcursor]
    exact ⟨rfl, Array.append_empty.symm⟩
  have hinside : s.cursor < s.config.dictionarySize := Nat.lt_of_not_le hcursor
  rw [if_neg hcursor]
  by_cases hregion : s.config.ringCapacity < s.cursor + s.config.maxMessageSize
  · have hdecode : Decoder.decode s.decoder frame s.window.bytes s.window.cursor
        s.window.messageCapacity
          = .refused .regionBeyondWindow (s.decoder, s.window.bytes) := if_pos hregion
    rw [process_eq (decide_eq_true hinside) (Nat.pos_of_ne_zero hframe) dst hdecode,
      if_pos hregion]
    exact ⟨rfl, Array.append_empty.symm⟩
  · rw [if_neg hregion]
    exact s.process_messageOf_of_ready hinside (Nat.le_of_not_lt hregion)
      (Nat.pos_of_ne_zero hframe) dst

/-- The answers of a session keep to the law: a state that lets no frame be told lets neither of
the two be told. -/
theorem cutsShort_messageFor {cut frame : Bytes} (hpos : 0 < cut.size)
    (hcut : ProperPrefix cut frame) (s : Decompressor Lz4Context) :
    CutsShort (s.messageFor cut) (s.messageFor frame) := by
  unfold messageFor
  rw [if_neg (Nat.ne_of_gt hpos), if_neg (Nat.ne_of_gt hcut.size_pos)]
  split
  · exact True.intro
  · split
    · exact True.intro
    · exact (tells_messageOf hpos _ _ _).cutsShort (tells_messageOf hcut.size_pos _ _ _) hcut

end Decompressor

/--
**A frame that was cut short never becomes another message.**

In any state of a session, the answers to a frame and to a part of it from its start are
these: if the frame is accepted, the part is malformed or it appends a proper prefix of
the message; and if the part is accepted, the frame is malformed or it goes on with the
message of the part.  Neither the destinations nor what the ring holds come into it.
Blocks that are decoded into a slice of any length keep to the same law.
-/
theorem cutsShort_process :
    (∀ (s : Decompressor Lz4Context) (dst dst' cut frame : Bytes), 0 < cut.size →
      ProperPrefix cut frame →
      ∃ part whole, (s.process dst cut).Appends dst part ∧
        (s.process dst' frame).Appends dst' whole ∧ CutsShort part whole) ∧
    ∀ (room : Nat) (cut frame : Bytes), 0 < cut.size → ProperPrefix cut frame →
      CutsShort (decompressInto room cut) (decompressInto room frame) := by
  refine ⟨fun s dst dst' cut frame hpos hcut => ?_, fun room cut frame hpos hcut => ?_⟩
  · exact ⟨s.messageFor cut, s.messageFor frame, s.process_messageFor dst cut,
      s.process_messageFor dst' frame, s.cutsShort_messageFor hpos hcut⟩
  · exact cutsShort_decompressInto hpos hcut room

/-- Behind three bytes, a frame that copies two of them is cut behind its first literal.  The part
is accepted and appends that literal, which the message of the frame begins with. -/
theorem cutsShort_process_literal :
    let s := ((Decompressor.lz4 ⟨0, 0⟩).receive [(#[], #[0x30, 1, 2, 3])]).1
    let cut : Bytes := #[0x12, 9]
    let frame : Bytes := #[0x12, 9, 2, 0, 0x10, 7]
    (0 < cut.size ∧ ProperPrefix cut frame) ∧
    ∃ part whole, (s.process #[5] cut).Appends #[5] (.ok part) ∧
      (s.process #[] frame).Appends #[] (.ok whole) ∧ ProperPrefix part whole := by
  intro s cut frame
  have hpos : 0 < cut.size := by decide
  have hcut : ProperPrefix cut frame := ⟨#[2, 0, 0x10, 7], by decide, by decide⟩
  have hpart : (s.process #[5] cut).failure? = none := by decide +kernel
  have hwhole : (s.process #[] frame).failure? = none := by decide +kernel
  refine ⟨⟨hpos, hcut⟩, ?_⟩
  obtain ⟨part, whole, happends, happends', hlaw⟩ :=
    cutsShort_process.1 s #[5] #[] cut frame hpos hcut
  cases part with
  | error failure => simp [Outcome.failure?, happends.1, Except.map] at hpart
  | ok part =>
      cases whole with
      | error failure => simp [Outcome.failure?, happends'.1, Except.map] at hwhole
      | ok whole => exact ⟨part, whole, happends, happends', hlaw⟩

end WindowedLz4
