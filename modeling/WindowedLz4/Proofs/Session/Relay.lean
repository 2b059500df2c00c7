/-
Two sessions over codecs that may fail.

The codecs are anything, and any call of theirs may fail.  What they owe is little.  An
encoder that fails leaves its destination alone, and one that succeeds appends a frame
with something in it (`FairEncoding`).  A decoder leaves what stands before its region
alone, and where it succeeds on a frame it has written the message that the frame was
made of (`FairDecoding`).  A call that failed may be made again as often as one likes,
and on the sending side behind more writes.

The two ends keep in step all the same.  A session commits nothing before its codec has
succeeded, and from then on nothing fails, so either end has turned its window with
exactly the messages whose codec calls succeeded (`Sends`, `Receives`).  The receiver's
are the first of the sender's, and a log is a function of the messages
(`Logged.Records`), so the log of the receiver's codec is the first part of the log of
the sender's.
-/
import WindowedLz4.Codec.Scripted
import WindowedLz4.Proofs.Codec.Logged
namespace WindowedLz4

/-! ### What the codecs owe -/

/-- An encoder that succeeds appends at least one byte to the destination, and one that fails
leaves it alone. -/
def FairEncoding {ε : Type} (dst : Bytes) (o : Outcome Nat (ε × Bytes)) : Prop :=
  match o.verdict with
  | .ok _ => dst.size < o.after.2.size ∧ o.after.2.extract 0 dst.size = dst
  | .error _ => o.after.2 = dst

/-- A decoder leaves what stands before `start` alone.  If it succeeds, it tells the length of
the message and has written it at `start`. -/
def FairDecoding {δ : Type} {n : Nat} (window : Vector UInt8 n) (start : Nat) (message : Bytes)
    (o : Outcome Nat (δ × Vector UInt8 n)) : Prop :=
  o.after.2.toArray.extract 0 start = window.toArray.extract 0 start ∧
  match o.verdict with
  | .ok size => size = message.size ∧ o.after.2.toArray.extract start (start + size) = message
  | .error _ => True

instance {ε : Type} (dst : Bytes) : (o : Outcome Nat (ε × Bytes)) → Decidable (FairEncoding dst o)
  | ⟨.ok _, _⟩ => inferInstanceAs (Decidable (_ ∧ _))
  | ⟨.error _, _⟩ => inferInstanceAs (Decidable (_ = _))

instance {δ : Type} {n : Nat} (window : Vector UInt8 n) (start : Nat) (message : Bytes) :
    (o : Outcome Nat (δ × Vector UInt8 n)) → Decidable (FairDecoding window start message o)
  | ⟨.ok _, _⟩ => inferInstanceAs (Decidable (_ ∧ _ ∧ _))
  | ⟨.error _, _⟩ => inferInstanceAs (Decidable (_ ∧ True))

theorem FairEncoding.exists_frame {ε : Type} {dst dst' : Bytes} {size : Nat} {context : ε}
    (h : FairEncoding dst (.done size (context, dst'))) :
    ∃ frame : Bytes, 0 < frame.size ∧ dst' = dst ++ frame := by
  have hsize : dst.size < dst'.size := h.1
  have hfront : dst'.extract 0 dst.size = dst := h.2
  have hparts := extract_append_extract_size (Nat.le_of_lt hsize)
  rw [hfront] at hparts
  refine ⟨dst'.extract dst.size dst'.size, ?_, hparts.symm⟩
  rw [Array.size_extract]
  omega

/-! ### The sending side -/

theorem Transcript.note_nothing (t : Transcript) : t.note {} = t := by
  simp [note]

namespace Compressor

variable {ε : Type} {s : Compressor (Logged ε)} {config : WindowConfig} {t : Transcript}

/-- The session has turned its window with the messages of the transcript, and the log of its
codec says so. -/
structure Sends (s : Compressor (Logged ε)) (config : WindowConfig) (t : Transcript) : Prop where
  serves : s.window.Serves s.config
  config_eq : s.config = config
  pending_eq : s.window.pending = t.pending
  history_eq : s.window.history = historyAfter config.dictionarySize t.messages
  records : s.encoder.Records config.dictionarySize t.messages
  fits : ∀ message ∈ t.messages, 0 < message.size ∧ message.size ≤ config.maxMessageSize
  frames_pos : ∀ frame ∈ t.frames, 0 < frame.size
  length_frames : t.frames.length = t.messages.length

theorem withEncoder_sends (config : WindowConfig) (encoder : ε) :
    (withEncoder config (Logged.blank encoder)).Sends config.clamped {} :=
  ⟨Growing.ofConfig_serves config, rfl, rfl, rfl, Logged.blank_records encoder _,
    fun _ hmem => absurd hmem List.not_mem_nil, fun _ hmem => absurd hmem List.not_mem_nil, rfl⟩

variable [Encoder ε]

theorem Sends.write (h : s.Sends config t) (src : Bytes) :
    (s.serve (.write src)).1.Sends config (t.note (s.serve (.write src)).2) := by
  by_cases hlong : s.config.maxMessageSize < s.window.pending.size + src.size
  · rw [serve, Compressor.write_refuses h.serves hlong]
    show s.Sends config (t.note {})
    rw [t.note_nothing]
    exact h
  · obtain ⟨window, hwrite, hserves, hhistory, hpending⟩ :=
      Compressor.write_accepts h.serves (Nat.le_of_not_lt hlong)
    rw [serve, hwrite]
    exact { h with
      serves := hserves
      pending_eq := by
        show window.pending = t.pending ++ src
        rw [hpending, h.pending_eq]
      history_eq := hhistory.trans h.history_eq }

/-- A message that is encoded goes to the transcript and to the log. -/
private theorem Sends.process_encoded (h : s.Sends config t) (hpos : 0 < s.pendingSize)
    {dst frame : Bytes} (hframe : 0 < frame.size) {size : Nat} {codec : ε}
    (hencode : Encoder.encode s.encoder.codec s.window.buffer s.window.start dst
      = .done size (codec, dst ++ frame)) :
    ∃ s', s.process dst = .done size (s', dst ++ frame) ∧ s'.Sends config
      { messages := t.messages ++ [t.pending], frames := t.frames ++ [frame] } := by
  obtain rfl := h.config_eq
  obtain ⟨window, hprocess, hserves, hhistory, hpending⟩ :=
    process_of_ok h.serves hpos (Logged.encode_eq hencode)
  rw [h.pending_eq, h.history_eq] at hhistory
  refine ⟨_, hprocess, ⟨hserves, rfl, hpending, ?_, ?_, ?_, ?_, ?_⟩⟩
  · rw [historyAfter_concat]
    exact hhistory
  · have hcoding : (⟨s.window.start, s.window.buffer.extract 0 s.window.start⟩ : Coding)
        = ⟨s.window.history.size, s.window.history⟩ := by
      rw [s.window.size_history]
      rfl
    rw [hcoding, ← h.pending_eq]
    exact h.records.encoder_turn h.history_eq size codec
  · intro message hmem
    rcases List.mem_append.mp hmem with hmem | hmem
    · exact h.fits message hmem
    · rw [List.mem_singleton.mp hmem, ← h.pending_eq, ← pendingSize_eq]
      refine ⟨hpos, ?_⟩
      rw [pendingSize_eq]
      exact h.serves.size_pending_le
  · intro f hmem
    rcases List.mem_append.mp hmem with hmem | hmem
    · exact h.frames_pos f hmem
    · rw [List.mem_singleton.mp hmem]
      exact hframe
  · rw [List.length_append, List.length_append, h.length_frames]
    rfl

/-- **Processing adds a message to the transcript and to the log, or to neither.** -/
theorem Sends.process (h : s.Sends config t) {dst : Bytes}
    (hfair : 0 < s.pendingSize → FairEncoding dst
      (Encoder.encode s.encoder.codec s.window.buffer s.window.start dst)) :
    (s.serve (.process dst)).1.Sends config (t.note (s.serve (.process dst)).2) := by
  rcases Nat.eq_zero_or_pos s.pendingSize with hzero | hpos
  · rw [serve, process_noData hzero]
    show s.Sends config (t.note {})
    rw [t.note_nothing]
    exact h
  · have hfair := hfair hpos
    rcases hencode : Encoder.encode s.encoder.codec s.window.buffer s.window.start dst with
      ⟨verdict, codec, dst'⟩
    rw [hencode] at hfair
    cases verdict with
    | error failure =>
        rw [serve, process_of_error hpos (Logged.encode_eq hencode)]
        have hsends : ({ s with encoder := { s.encoder with codec } } :
            Compressor (Logged ε)).Sends config t := { h with records := h.records.failed codec }
        rw [← t.note_nothing] at hsends
        exact hsends
    | ok size =>
        obtain ⟨frame, hframe, rfl⟩ := FairEncoding.exists_frame hfair
        obtain ⟨s', hprocess, hsends⟩ := h.process_encoded hpos hframe hencode
        have hnote : t.note { frame? := appended dst (s.process dst) }
            = { messages := t.messages ++ [t.pending], frames := t.frames ++ [frame] } := by
          simp [hprocess, appended, Outcome.done, Except.toOption, Transcript.note]
        rw [serve, hnote, hprocess]
        exact hsends

end Compressor

/-! ### The receiving side -/

namespace Decompressor

variable {δ : Type}

/-- The session has turned its window with these messages, and the log of its codec says so. -/
structure Receives (s : Decompressor (Logged δ)) (config : WindowConfig) (messages : List Bytes) :
    Prop where
  serves : s.window.Serves
  config_eq : s.config = config
  history_eq : s.window.history = historyAfter config.dictionarySize messages
  records : s.decoder.Records config.dictionarySize messages

theorem withDecoder_receives (config : WindowConfig) (decoder : δ) :
    (withDecoder config (Logged.blank decoder)).Receives config.clamped [] :=
  ⟨Ring.empty_serves config, rfl, Array.extract_empty_of_stop_le_start (Nat.le_refl 0),
    Logged.blank_records decoder _⟩

variable [Decoder δ]

variable {s : Decompressor (Logged δ)} {config : WindowConfig} {messages : List Bytes}

/-- **A frame is delivered as its message, which goes to the log, or changes nothing.** -/
theorem Receives.process (h : s.Receives config messages) {frame message : Bytes}
    (hframe : 0 < frame.size) (hpos : 0 < message.size)
    (hfit : message.size ≤ config.maxMessageSize) (dst : Bytes)
    (hfair : FairDecoding s.window.bytes s.window.cursor message
      (Decoder.decode s.decoder.codec frame s.window.bytes s.window.cursor
        s.window.messageCapacity)) :
    (∃ failure s', s.process dst frame = .refused failure (s', dst) ∧
      s'.Receives config messages) ∨
    ∃ s', s.process dst frame = .done message.size (s', dst ++ message) ∧
      s'.Receives config (messages ++ [message]) := by
  obtain rfl := h.config_eq
  rcases hdecode : Decoder.decode s.decoder.codec frame s.window.bytes s.window.cursor
    s.window.messageCapacity with ⟨verdict, codec, bytes⟩
  rw [hdecode] at hfair
  obtain ⟨hbefore, hmessage⟩ := hfair
  cases verdict with
  | error failure =>
      refine .inl ⟨failure, _, process_of_error h.serves hframe dst (Logged.decode_eq hdecode), ?_⟩
      exact ⟨⟨h.serves.exact, h.serves.cursor_lt⟩, rfl, hbefore.trans h.history_eq,
        h.records.failed codec⟩
  | ok size =>
      obtain ⟨rfl, hahead⟩ := hmessage
      obtain ⟨window, hprocess, hserves, hhistory⟩ := process_of_message h.serves hframe dst
        (Logged.decode_eq hdecode) hpos hfit hbefore hahead
      rw [h.history_eq] at hhistory
      refine .inr ⟨_, hprocess, ⟨hserves, rfl, ?_, ?_⟩⟩
      · rw [historyAfter_concat]
        exact hhistory
      · have hcoding :
            (⟨s.window.cursor, s.window.bytes.toArray.extract 0 s.window.cursor⟩ : Coding)
              = ⟨s.window.history.size, s.window.history⟩ := by
          rw [h.serves.size_history]
          rfl
        rw [hcoding]
        exact h.records.decoder_turn h.history_eq message.size codec

end Decompressor

/-! ### The relay -/

/-- A sender and a receiver, and what there is to tell of them. -/
structure Relay (ε δ : Type) where
  sender : Compressor ε
  receiver : Decompressor δ
  /-- What the caller of the sender has written down. -/
  transcript : Transcript := {}
  /-- How many of the frames the receiver has accepted. -/
  taken : Nat := 0
  /-- All that the calls of the receiver appended, whether they succeeded or not. -/
  delivered : Bytes := #[]

namespace Relay

/-- A write, a call for the frame of what is pending, or the next frame for the receiver. -/
inductive Event where
  | write (src : Bytes)
  | process (dst : Bytes)
  | take (dst : Bytes)
  deriving DecidableEq, Repr, Inhabited

variable {ε δ : Type}

/-- Two new sessions of one configuration. -/
def between (config : WindowConfig) (encoder : ε) (decoder : δ) : Relay ε δ where
  sender := .withEncoder config encoder
  receiver := .withDecoder config decoder

/-- The relay without the logs of its codecs. -/
def forget (l : Relay (Logged ε) (Logged δ)) : Relay ε δ :=
  { l with sender := l.sender.forget, receiver := l.receiver.forget }

section Events

variable [Encoder ε] [Decoder δ]

/-- The relay after a call of the sender. -/
def sent (l : Relay ε δ) (call : Compressor.Call) : Relay ε δ :=
  let (sender, reply) := l.sender.serve call
  { l with sender, transcript := l.transcript.note reply }

/-- The relay after the receiver was given the next frame.  If it fails, the frame stays the
next one. -/
def received (l : Relay ε δ) (frame dst : Bytes) : Relay ε δ :=
  let o := l.receiver.process dst frame
  { l with
    receiver := o.after.1
    taken := match o.verdict with
      | .ok _ => l.taken + 1
      | .error _ => l.taken
    delivered := l.delivered ++ o.after.2.extract dst.size o.after.2.size }

/-- One event.  Nothing is taken while there is no frame. -/
def step (l : Relay ε δ) : Event → Relay ε δ
  | .write src => l.sent (.write src)
  | .process dst => l.sent (.process dst)
  | .take dst =>
    match l.transcript.frames[l.taken]? with
    | none => l
    | some frame => l.received frame dst

/-- The relay after some events. -/
def run (l : Relay ε δ) (events : List Event) : Relay ε δ :=
  events.foldl step l

/-- The codec does what it owes in the call that an event makes of it, if it makes one. -/
def FairStep (l : Relay ε δ) : Event → Prop
  | .write _ => True
  | .process dst =>
    0 < l.sender.pendingSize → FairEncoding dst
      (Encoder.encode l.sender.encoder l.sender.window.buffer l.sender.window.start dst)
  | .take _ =>
    ∀ frame ∈ l.transcript.frames[l.taken]?, ∀ message ∈ l.transcript.messages[l.taken]?,
      FairDecoding l.receiver.window.bytes l.receiver.window.cursor message
        (Decoder.decode l.receiver.decoder frame l.receiver.window.bytes l.receiver.window.cursor
          l.receiver.window.messageCapacity)

/-- The codecs do what they owe in all calls of a run. -/
def Fair (l : Relay ε δ) : List Event → Prop
  | [] => True
  | event :: rest => l.FairStep event ∧ (l.step event).Fair rest

instance decidableFairStep (l : Relay ε δ) : (event : Event) → Decidable (l.FairStep event)
  | .write _ => inferInstanceAs (Decidable True)
  | .process _ => inferInstanceAs (Decidable (_ → FairEncoding _ _))
  | .take _ => inferInstanceAs (Decidable (∀ _ ∈ _, ∀ _ ∈ _, FairDecoding _ _ _ _))

instance decidableFair : (l : Relay ε δ) → (events : List Event) → Decidable (l.Fair events)
  | _, [] => inferInstanceAs (Decidable True)
  | l, event :: rest =>
    have := decidableFair (l.step event) rest
    inferInstanceAs (Decidable (_ ∧ _))

end Events

/-! ### In step -/

/-- The log of the receiver's codec is the first part of the log of the sender's. -/
structure Synchronised (l : Relay (Logged ε) (Logged δ)) : Prop where
  /-- Of the calls that succeeded, each decoding was given the place in the window and the bytes
  before it that the encoding of the same number was given. -/
  coded_eq : l.receiver.decoder.coded = l.sender.encoder.coded.take l.taken
  /-- Every encoding that succeeded has emitted its frame. -/
  length_encoded : l.sender.encoder.coded.length = l.transcript.frames.length
  /-- Every decoding that succeeded has taken its frame. -/
  length_decoded : l.receiver.decoder.coded.length = l.taken
  /-- The windows that the receiver gave up are those that the sender gave up over the messages
  taken so far, each after the same message. -/
  retired_eq : l.receiver.decoder.retired
    = l.sender.encoder.retired.filter fun entry => entry.1 ≤ l.taken
  /-- What was delivered is the messages of the frames that were taken. -/
  delivered_eq : l.delivered = joined (l.transcript.messages.take l.taken)

/-- The two ends have turned their windows with the same messages, the receiver with as many of
them as it has taken. -/
structure Aligned (l : Relay (Logged ε) (Logged δ)) (config : WindowConfig) : Prop where
  sends : l.sender.Sends config l.transcript
  receives : l.receiver.Receives config (l.transcript.messages.take l.taken)
  taken_le : l.taken ≤ l.transcript.messages.length
  delivered_eq : l.delivered = joined (l.transcript.messages.take l.taken)

theorem between_aligned (config : WindowConfig) (encoder : ε) (decoder : δ) :
    (between config (Logged.blank encoder) (Logged.blank decoder)).Aligned config.clamped :=
  ⟨Compressor.withEncoder_sends config encoder, Decompressor.withDecoder_receives config decoder,
    Nat.le_refl 0, rfl⟩

variable {l : Relay (Logged ε) (Logged δ)} {config : WindowConfig}

theorem Aligned.synchronised (h : l.Aligned config) : l.Synchronised := by
  have htaken : (l.transcript.messages.take l.taken).length = l.taken :=
    List.length_take_of_le h.taken_le
  refine ⟨?_, ?_, ?_, ?_, h.delivered_eq⟩
  · rw [h.receives.records.coded_eq, h.sends.records.coded_eq, codings_take]
  · rw [h.sends.records.length_coded, h.sends.length_frames]
  · rw [h.receives.records.length_coded, htaken]
  · rw [h.receives.records.retired_eq, h.sends.records.retired_eq, retirals_take]
    simp only [Nat.zero_add]

/-! ### What an event preserves -/

/-- A call of the sender leaves the receiver alone, and can only add messages behind those that
were taken. -/
theorem Aligned.sent [Encoder ε] (h : l.Aligned config) (call : Compressor.Call)
    (hsends : (l.sent call).sender.Sends config (l.sent call).transcript) :
    (l.sent call).Aligned config := by
  obtain ⟨later, hlater⟩ := l.transcript.exists_messages_note (l.sender.serve call).2
  have htake : (l.sent call).transcript.messages.take l.taken
      = l.transcript.messages.take l.taken := by
    show (l.transcript.note (l.sender.serve call).2).messages.take l.taken = _
    rw [hlater, List.take_append_of_le_length h.taken_le]
  refine ⟨hsends, ?_, ?_, ?_⟩
  · show l.receiver.Receives config ((l.sent call).transcript.messages.take l.taken)
    rw [htake]
    exact h.receives
  · show l.taken ≤ (l.transcript.note (l.sender.serve call).2).messages.length
    rw [hlater, List.length_append]
    exact Nat.le_add_right_of_le h.taken_le
  · show l.delivered = joined ((l.sent call).transcript.messages.take l.taken)
    rw [htake]
    exact h.delivered_eq

/-- The next frame comes with the message that it was made of. -/
theorem Aligned.exists_message (h : l.Aligned config) {frame : Bytes}
    (hnext : l.transcript.frames[l.taken]? = some frame) :
    ∃ message, l.transcript.messages[l.taken]? = some message ∧ 0 < frame.size ∧
      0 < message.size ∧ message.size ≤ config.maxMessageSize := by
  obtain ⟨hlt, -⟩ := List.getElem?_eq_some_iff.mp hnext
  rw [h.sends.length_frames] at hlt
  have hmessage := List.getElem?_eq_getElem hlt
  exact ⟨_, hmessage, h.sends.frames_pos frame (List.mem_of_getElem? hnext),
    h.sends.fits _ (List.mem_of_getElem? hmessage)⟩

/-- The next frame is delivered, or stays the next. -/
theorem Aligned.received [Decoder δ] (h : l.Aligned config) {frame message : Bytes} (dst : Bytes)
    (hmessage : l.transcript.messages[l.taken]? = some message)
    (hreceives :
      (∃ failure s', l.receiver.process dst frame = .refused failure (s', dst) ∧
        s'.Receives config (l.transcript.messages.take l.taken)) ∨
      ∃ s', l.receiver.process dst frame = .done message.size (s', dst ++ message) ∧
        s'.Receives config (l.transcript.messages.take l.taken ++ [message])) :
    (l.received frame dst).Aligned config := by
  obtain ⟨failure, s', hprocess, hreceives⟩ | ⟨s', hprocess, hreceives⟩ := hreceives
  · have hsame : l.received frame dst = { l with receiver := s' } := by
      simp [Relay.received, hprocess, Outcome.refused]
    rw [hsame]
    exact { h with receives := hreceives }
  · have htake : l.transcript.messages.take (l.taken + 1)
        = l.transcript.messages.take l.taken ++ [message] := by
      rw [List.take_add_one, hmessage]
      rfl
    have hmore : l.received frame dst = { l with
        receiver := s', taken := l.taken + 1, delivered := l.delivered ++ message } := by
      simp only [Relay.received, hprocess, Outcome.done, extract_append_size]
    rw [hmore]
    refine ⟨h.sends, ?_, ?_, ?_⟩
    · show s'.Receives config (l.transcript.messages.take (l.taken + 1))
      rw [htake]
      exact hreceives
    · exact (List.getElem?_eq_some_iff.mp hmessage).1
    · show l.delivered ++ message = joined (l.transcript.messages.take (l.taken + 1))
      rw [htake, joined_concat, h.delivered_eq]

variable [Encoder ε] [Decoder δ]

theorem Aligned.step (h : l.Aligned config) {event : Event} (hfair : l.forget.FairStep event) :
    (l.step event).Aligned config := by
  cases event with
  | write src => exact h.sent (.write src) (h.sends.write src)
  | process dst => exact h.sent (.process dst) (h.sends.process hfair)
  | take dst =>
      unfold Relay.step
      cases hnext : l.transcript.frames[l.taken]? with
      | none => exact h
      | some frame =>
          obtain ⟨message, hmessage, hframe, hpos, hfit⟩ := h.exists_message hnext
          exact h.received dst hmessage (h.receives.process hframe hpos hfit dst
            (hfair frame hnext message hmessage))

/-- An event does the same without the logs. -/
theorem step_forget (l : Relay (Logged ε) (Logged δ)) (event : Event) :
    l.forget.step event = (l.step event).forget := by
  have hsent (call : Compressor.Call) : l.forget.sent call = (l.sent call).forget := by
    show { l.forget with
        sender := (l.sender.forget.serve call).1
        transcript := l.transcript.note (l.sender.forget.serve call).2 } = (l.sent call).forget
    rw [Compressor.serve_forget]
    rfl
  cases event with
  | write src => exact hsent (.write src)
  | process dst => exact hsent (.process dst)
  | take dst =>
      have hreceived (frame : Bytes) :
          l.forget.received frame dst = (l.received frame dst).forget := by
        unfold Relay.received
        rw [show l.forget.receiver = l.receiver.forget from rfl, Decompressor.process_forget]
        rfl
      unfold Relay.step
      cases hnext : l.transcript.frames[l.taken]? with
      | none =>
          rw [show l.forget.transcript.frames[l.forget.taken]? = none from hnext]
      | some frame =>
          rw [show l.forget.transcript.frames[l.forget.taken]? = some frame from hnext]
          exact hreceived frame

theorem run_forget (events : List Event) :
    ∀ l : Relay (Logged ε) (Logged δ), l.forget.run events = (l.run events).forget := by
  induction events with
  | nil => intro l; rfl
  | cons event rest ih =>
      intro l
      show (l.forget.step event).run rest = ((l.step event).run rest).forget
      rw [step_forget, ih]

theorem Aligned.run (events : List Event) :
    ∀ {l : Relay (Logged ε) (Logged δ)}, l.Aligned config → l.forget.Fair events →
      (l.run events).Aligned config := by
  induction events with
  | nil => intro l h _; exact h
  | cons event rest ih =>
      intro l h hfair
      obtain ⟨hstep, hrest⟩ := hfair
      rw [step_forget] at hrest
      exact ih (h.step hstep) hrest

/-! ### What a failure leaves -/

/-- A call that fails in the codec fails in the session, which is the same afterwards but for
the context of the codec, and for the bytes from the cursor on at the receiver. -/
structure KeepsFailed (l : Relay ε δ) : Prop where
  sender : ∀ {dst failure encoder}, 0 < l.sender.pendingSize →
    Encoder.encode l.sender.encoder l.sender.window.buffer l.sender.window.start dst
      = .refused failure (encoder, dst) →
    l.sender.process dst = .refused failure ({ l.sender with encoder }, dst)
  receiver : ∀ {dst frame failure decoder bytes}, 0 < frame.size →
    Decoder.decode l.receiver.decoder frame l.receiver.window.bytes l.receiver.window.cursor
      l.receiver.window.messageCapacity = .refused failure (decoder, bytes) →
    bytes.toArray.extract 0 l.receiver.window.cursor = l.receiver.window.history →
    ∃ window, l.receiver.process dst frame
        = .refused failure ({ l.receiver with decoder, window }, dst) ∧
      window.cursor = l.receiver.window.cursor ∧ window.history = l.receiver.window.history

theorem Aligned.keepsFailed (h : l.Aligned config) : l.forget.KeepsFailed := by
  have hserves : l.forget.receiver.window.Serves := h.receives.serves
  exact ⟨fun hpos hencode => Compressor.process_of_error hpos hencode,
    fun hframe hdecode hbefore =>
      ⟨_, Decompressor.process_of_error hserves hframe _ hdecode, rfl, hbefore⟩⟩

/--
**Sessions keep their codecs in step, whatever the codecs are.**

Two codecs that owe no more than `FairEncoding` and `FairDecoding` may fail at any call, and
any call may be made again.  At every point of such a run the decodings that succeeded were
given what the encodings of the same numbers were given, and the windows were given up after
the same messages with the same bytes.  A call that fails in a codec leaves what is pending,
the cursor, the bytes before it and the counters of its session as they were.
-/
theorem run_synchronised (config : WindowConfig) (encoder : ε) (decoder : δ)
    (events : List Event) (h : (between config encoder decoder).Fair events) :
    let l := (between config (Logged.blank encoder) (Logged.blank decoder)).run events
    l.forget = (between config encoder decoder).run events ∧ l.Synchronised ∧
      l.forget.KeepsFailed := by
  intro l
  have hplain : (between config encoder decoder)
      = (between config (Logged.blank encoder) (Logged.blank decoder)).forget := rfl
  rw [hplain] at h ⊢
  have haligned : l.Aligned config.clamped :=
    Aligned.run events (between_aligned config encoder decoder) h
  exact ⟨(run_forget events _).symm, haligned.synchronised, haligned.keepsFailed⟩

/-- A message grows while its encoding fails, and its frame is decoded at the second attempt. -/
theorem run_synchronised_retries :
    let encoder : Scripted := ⟨[.fail .malformed], []⟩
    let decoder : Scripted := ⟨[.fail .noData], []⟩
    let events : List Event := [.write #[1, 2], .process #[9], .write #[3], .process #[9],
      .write #[4], .process #[], .take #[], .take #[], .take #[9]]
    let l := (between ⟨0, 0⟩ (Logged.blank encoder) (Logged.blank decoder)).run events
    (between ⟨0, 0⟩ encoder decoder).Fair events ∧ l.Synchronised ∧
      l.receiver.decoder.coded = [⟨0, #[]⟩, ⟨3, #[1, 2, 3]⟩] := by
  intro encoder decoder events l
  have hfair : (between ⟨0, 0⟩ encoder decoder).Fair events := by decide +kernel
  exact ⟨hfair, (run_synchronised ⟨0, 0⟩ encoder decoder events hfair).2.1, by decide +kernel⟩

end Relay

end WindowedLz4
