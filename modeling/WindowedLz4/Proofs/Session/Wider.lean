/-
A receiver with a larger window.

What a receiver delivers depends on its sizes in two places only: how far back its
dictionaries reach, and how long a message it has room for.  More text in front of a
dictionary does not change the meaning of a frame that has one already, and the room does
nothing but compare, so a frame that decodes with less decodes to the same with more
(`messageOf_mono`).  The past is then the same for both receivers, and the argument goes
on with the next frame (`messagesOf_mono`).

Where the two rings wrap, and so where the seam lies between what is still in the window
and what is only recalled, does not come into it: both sessions are compared with a
receiver that remembers everything.
-/
import WindowedLz4.Proofs.Session.Rejections
namespace WindowedLz4

/-! ### More of everything -/

section Mono

variable {reach reach' room room' : Nat} {past frame message : Bytes}

theorem messageOf_mono (hreach : reach ≤ reach') (hroom : room ≤ room')
    (h : messageOf reach room past frame = .ok message) :
    messageOf reach' room' past frame = .ok message := by
  obtain ⟨hframe, hplain, hpos⟩ := messageOf_eq_ok h
  rw [messageOf, if_neg (Nat.ne_of_gt hframe), expandFrame_mono hreach hroom hplain]
  exact if_neg (Nat.ne_of_gt hpos)

/-- The messages of frames that are all accepted stay the same with more of everything. -/
theorem messagesOf_mono (hreach : reach ≤ reach') (hroom : room ≤ room') (frames : List Bytes) :
    ∀ {past : Bytes} {messages : List Bytes},
      messagesOf reach room past frames = messages.map .ok →
      messagesOf reach' room' past frames = messages.map .ok := by
  induction frames with
  | nil => intro past messages h; exact h
  | cons frame rest ih =>
      intro past messages h
      cases messages with
      | nil => simp [messagesOf] at h
      | cons message later =>
          rw [messagesOf, List.map_cons, List.cons.injEq] at h
          obtain ⟨hmessage, hlater⟩ := h
          rw [hmessage] at hlater
          rw [messagesOf, messageOf_mono hreach hroom hmessage, List.map_cons, ih hlater]

/-- The frames of messages that fit are the frames of those messages. -/
theorem messagesOf_framesOf (reach : Nat) {room : Nat} (messages : List Bytes) :
    ∀ {past : Bytes}, (∀ message ∈ messages, 0 < message.size ∧ message.size ≤ room) →
      messagesOf reach room past (framesOf reach past messages) = messages.map .ok := by
  induction messages with
  | nil => intro past _; rfl
  | cons message rest ih =>
      intro past hfits
      obtain ⟨hpos, hfit⟩ := hfits message List.mem_cons_self
      have hmessage : messageOf reach room past (frameOf (lastBytes reach past) message)
          = .ok message := by
        rw [messageOf, if_neg (Nat.ne_of_gt (size_frameOf_pos _ _)), expandFrame_frameOf _ hfit]
        exact if_neg (Nat.ne_of_gt hpos)
      rw [framesOf, messagesOf, hmessage, List.map_cons]
      exact congrArg _ (ih fun m hm => hfits m (List.mem_cons_of_mem message hm))

end Mono

/-! ### What a sender has processed -/

namespace Compressor

variable {config : WindowConfig} {reach : Nat}

/-- Every message that was processed is one that may be written. -/
theorem Transcribes.fits_foldl_serveOne (calls : List Call) :
    ∀ {state : Compressor Lz4Context × Transcript}, state.1.Transcribes config reach state.2 →
      (∀ message ∈ state.2.messages, 0 < message.size ∧ message.size ≤ config.maxMessageSize) →
      ∀ message ∈ (calls.foldl Compressor.serveOne state).2.messages,
        0 < message.size ∧ message.size ≤ config.maxMessageSize := by
  induction calls with
  | nil => intro state _ hfits; exact hfits
  | cons call rest ih =>
      intro state h hfits
      refine ih (h.serveOne call) ?_
      unfold Compressor.serveOne
      obtain ⟨s', accepted, ⟨hserve, -⟩ | ⟨hserve, hpos, hfit, -⟩⟩ := h.follows.serve_cases call
      · rw [hserve]
        exact hfits
      · rw [hserve]
        intro message hmem
        rcases List.mem_append.mp hmem with hmem | hmem
        · exact hfits message hmem
        · rw [List.mem_singleton.mp hmem]
          exact ⟨hpos, hfit⟩

theorem fits_run (config : WindowConfig) (calls : List Call) :
    ∀ message ∈ ((lz4 config).run calls).2.messages,
      0 < message.size ∧ message.size ≤ config.clamped.maxMessageSize :=
  Transcribes.fits_foldl_serveOne calls (lz4_transcribes config) fun _ hmem => nomatch hmem

end Compressor

/-! ### What a receiver accepts -/

namespace Decompressor

section Codec

variable {δ : Type} [Decoder δ]

/-- The session accepts the frames of some calls one after another. -/
def Accepts (s : Decompressor δ) : List (Bytes × Bytes) → Prop
  | [] => True
  | (dst, frame) :: calls =>
    (s.process dst frame).failure? = none ∧ (s.process dst frame).after.1.Accepts calls

instance decidableAccepts (s : Decompressor δ) :
    (calls : List (Bytes × Bytes)) → Decidable (s.Accepts calls)
  | [] => inferInstanceAs (Decidable True)
  | (dst, frame) :: calls =>
    have := decidableAccepts (s.process dst frame).after.1 calls
    inferInstanceAs (Decidable (_ ∧ _))

/-- The session accepts the frames of some calls one after another, and appends these messages
to their destinations. -/
def Delivers (s : Decompressor δ) : List (Bytes × Bytes) → List Bytes → Prop
  | [], [] => True
  | (dst, frame) :: calls, message :: messages =>
    (s.process dst frame).verdict = .ok message.size ∧
      (s.process dst frame).after.2 = dst ++ message ∧
      (s.process dst frame).after.1.Delivers calls messages
  | _, _ => False

end Codec

variable {config : WindowConfig} {reach : Nat}

theorem Follows.exists_messagesOf_of_accepts (calls : List (Bytes × Bytes)) :
    ∀ {s : Decompressor Lz4Context} {past : Bytes}, s.Follows config reach past →
      s.Accepts calls → ∃ messages : List Bytes,
        messagesOf reach config.maxMessageSize past (calls.map fun call => call.2)
          = messages.map .ok := by
  induction calls with
  | nil => intro s past _ _; exact ⟨[], rfl⟩
  | cons call rest ih =>
      obtain ⟨dst, frame⟩ := call
      intro s past h haccepts
      obtain ⟨haccepted, hrest⟩ := haccepts
      cases hmessage : messageOf reach config.maxMessageSize past frame with
      | ok message =>
          obtain ⟨s', hprocess, hfollows⟩ := h.process_messageOf_ok hmessage dst
          rw [hprocess] at hrest
          obtain ⟨messages, hmessages⟩ := ih hfollows hrest
          refine ⟨message :: messages, ?_⟩
          rw [List.map_cons, messagesOf, hmessage, List.map_cons, ← hmessages]
          rfl
      | error failure =>
          obtain ⟨s', hprocess, -⟩ := h.process_messageOf_error hmessage dst
          simp [hprocess, Outcome.refused, Outcome.failure?] at haccepted

theorem Follows.delivers (calls : List (Bytes × Bytes)) :
    ∀ {s : Decompressor Lz4Context} {past : Bytes} {messages : List Bytes},
      s.Follows config reach past →
      messagesOf reach config.maxMessageSize past (calls.map fun call => call.2)
        = messages.map .ok → s.Delivers calls messages := by
  induction calls with
  | nil =>
      intro s past messages _ hmessages
      obtain rfl : messages = [] := by simpa [messagesOf] using hmessages.symm
      trivial
  | cons call rest ih =>
      obtain ⟨dst, frame⟩ := call
      intro s past messages h hmessages
      cases messages with
      | nil => simp [messagesOf] at hmessages
      | cons message later =>
          rw [List.map_cons, messagesOf, List.map_cons, List.cons.injEq] at hmessages
          obtain ⟨hmessage, hlater⟩ := hmessages
          rw [hmessage] at hlater
          obtain ⟨s', hprocess, hfollows⟩ := h.process_messageOf_ok hmessage dst
          rw [Delivers, hprocess]
          exact ⟨rfl, rfl, ih hfollows hlater⟩

/--
**A receiver with a larger window delivers what a smaller one does.**

If the dictionaries of a second configuration reach at least as far back and its messages
may be at least as long, then a receiver of it accepts every frame that a receiver of the
first accepts, one after another, and appends the same messages, whatever the frames and
the destinations are.  The frames that a sender of the first configuration emits are
delivered to it as the messages they were made of.
-/
theorem delivers_wider (config config' : WindowConfig) (hreach : config.reach ≤ config'.reach)
    (hroom : config.clamped.maxMessageSize ≤ config'.clamped.maxMessageSize) :
    (∀ calls, (lz4 config).Accepts calls → ∃ messages, (lz4 config).Delivers calls messages ∧
      ∀ calls', (calls'.map fun call => call.2) = (calls.map fun call => call.2) →
        (lz4 config').Delivers calls' messages) ∧
    ∀ sent calls, (calls.map fun call => call.2) = ((Compressor.lz4 config).run sent).2.frames →
      (lz4 config').Delivers calls ((Compressor.lz4 config).run sent).2.messages := by
  have hnarrow : (lz4 config).Follows config.clamped config.reach #[] :=
    withDecoder_follows config config.clamped
  have hwide : (lz4 config').Follows config'.clamped config'.reach #[] :=
    withDecoder_follows config' config'.clamped
  refine ⟨fun calls haccepts => ?_, fun sent calls hframes => ?_⟩
  · obtain ⟨messages, hmessages⟩ := hnarrow.exists_messagesOf_of_accepts calls haccepts
    refine ⟨messages, hnarrow.delivers calls hmessages, fun calls' hsame => ?_⟩
    refine hwide.delivers calls' ?_
    rw [hsame]
    exact messagesOf_mono hreach hroom _ hmessages
  · have htranscribes := Compressor.run_transcribes config sent
    refine hwide.delivers calls ?_
    rw [hframes, htranscribes.frames_eq]
    exact messagesOf_mono hreach hroom _
      (messagesOf_framesOf config.reach _ (Compressor.fits_run config sent))

/-- A frame that copies from the message before it goes to a larger window as well. -/
theorem delivers_wider_copy :
    let calls : List (Bytes × Bytes) :=
      [(#[], #[0x30, 1, 2, 3]), (#[7], #[0x02, 3, 0, 0x10, 9])]
    (WindowConfig.reach ⟨0, 0⟩ ≤ WindowConfig.reach ⟨100000, 1000⟩ ∧
      (WindowConfig.clamped ⟨0, 0⟩).maxMessageSize
        ≤ (WindowConfig.clamped ⟨100000, 1000⟩).maxMessageSize ∧
      (lz4 ⟨0, 0⟩).Accepts calls) ∧
    ∃ messages, (lz4 ⟨0, 0⟩).Delivers calls messages ∧
      (lz4 ⟨100000, 1000⟩).Delivers calls messages := by
  intro calls
  have hreach : WindowConfig.reach ⟨0, 0⟩ ≤ WindowConfig.reach ⟨100000, 1000⟩ := by decide
  have hroom : (WindowConfig.clamped ⟨0, 0⟩).maxMessageSize
      ≤ (WindowConfig.clamped ⟨100000, 1000⟩).maxMessageSize := by decide
  have haccepts : (lz4 ⟨0, 0⟩).Accepts calls := by decide +kernel
  obtain ⟨messages, hnarrow, hwide⟩ :=
    (delivers_wider ⟨0, 0⟩ ⟨100000, 1000⟩ hreach hroom).1 calls haccepts
  exact ⟨⟨hreach, hroom, haccepts⟩, messages, hnarrow, hwide calls rfl⟩

end Decompressor

end WindowedLz4
