/-
What a failed call leaves of a session.

Compressing a message at once is two steps, and the first of them changes the session.
A write that is refused changes nothing, and neither does a call for which there is
nothing to send.  But an encoder that fails does so when the message is written
already, and the message stays.  So the call is atomic unless it is the encoder that
fails, and an encoder may fail at any call of a message that is not empty
(`compressMessage_atomic_iff`): then the message is pending, a call for the frame of
what is pending sends it, and the same call made again sends it twice.

The codec is anything.  All that is known of a session is that its window serves it
(`Ready`), and all that a call can do is in `compressMessage_ends`.
-/
import WindowedLz4.Codec.Scripted
import WindowedLz4.Proofs.Session.Frames
namespace WindowedLz4

namespace Compressor

variable {ε : Type} {s : Compressor ε} {config : WindowConfig}

/-- The session is for these sizes, and its window serves it. -/
structure Ready (s : Compressor ε) (config : WindowConfig) : Prop where
  serves : s.window.Serves s.config
  config_eq : s.config = config

theorem withEncoder_ready (config : WindowConfig) (encoder : ε) :
    (withEncoder config encoder).Ready config.clamped :=
  ⟨Growing.ofConfig_serves config, rfl⟩

/-- The session but for its pending message and the context of its codec. -/
structure Keeps (s s' : Compressor ε) : Prop where
  start_eq : s'.window.start = s.window.start
  history_eq : s'.window.history = s.window.history
  ledger_eq : s'.ledger = s.ledger

theorem Keeps.refl (s : Compressor ε) : s.Keeps s := ⟨rfl, rfl, rfl⟩

/-- The cursor is where the history ends. -/
theorem Keeps.of_history {s' : Compressor ε} (hhistory : s'.window.history = s.window.history)
    (hledger : s'.ledger = s.ledger) : s.Keeps s' := by
  refine ⟨?_, hhistory, hledger⟩
  rw [← s'.window.size_history, hhistory, s.window.size_history]

/-! ### How a call can end -/

/-- A write is refused and changes nothing, or what is written is pending. -/
theorem write_ends (h : s.Ready config) (src : Bytes) :
    (s.write src).after.Ready config ∧
    (config.maxMessageSize < (s.window.pending ++ src).size ∧
        s.write src
          = .refused (.messageTooLarge s.pendingSize src.size config.maxMessageSize) s ∨
      (s.window.pending ++ src).size ≤ config.maxMessageSize ∧
        ∃ window, s.write src = .done () { s with window } ∧
          window.pending = s.window.pending ++ src ∧ window.history = s.window.history) := by
  obtain rfl := h.config_eq
  rw [Array.size_append]
  rcases Nat.lt_or_ge s.config.maxMessageSize (s.window.pending.size + src.size) with hlong | hfit
  · rw [write_refuses h.serves hlong]
    exact ⟨h, .inl ⟨hlong, rfl⟩⟩
  · obtain ⟨window, hwrite, hserves, hhistory, hpending⟩ := write_accepts h.serves hfit
    rw [hwrite]
    exact ⟨⟨hserves, rfl⟩, .inr ⟨hfit, window, rfl, hpending, hhistory⟩⟩

variable [Encoder ε]

/-- What the encoder makes of a message behind the history. -/
def encodeBehind (s : Compressor ε) (message dst : Bytes) : Outcome Nat (ε × Bytes) :=
  Encoder.encode s.encoder (s.window.history ++ message) s.window.history.size dst

/-- The encoder made a frame of the message, once and in one piece, and the message is
committed. -/
structure Commits (s : Compressor ε) (message dst : Bytes)
    (o : Outcome Nat (Compressor ε × Bytes)) (size : Nat) : Prop where
  verdict_eq : o.verdict = .ok size
  encoded : ∃ context, s.encodeBehind message dst = .done size (context, o.after.2)
  pending_eq : o.after.1.window.pending = #[]
  history_eq : o.after.1.window.history
    = (turn s.config.dictionarySize s.window.history message).2
  ledger_eq : o.after.1.ledger = s.ledger.record message.size size

/-- The encoder failed, and the message it failed at is pending. -/
structure Stalls (s : Compressor ε) (message dst : Bytes)
    (o : Outcome Nat (Compressor ε × Bytes)) (failure : Failure) : Prop where
  verdict_eq : o.verdict = .error failure
  failed : s.encodeBehind message dst = .refused failure (o.after.1.encoder, o.after.2)
  pending_eq : o.after.1.window.pending = message
  keeps : s.Keeps o.after.1

/-- Processing has nothing to send, or the encoder decides. -/
theorem process_ends (h : s.Ready config) (dst : Bytes) :
    (s.process dst).after.1.Ready config ∧
    (s.window.pending.size = 0 ∧ s.process dst = .refused .noData (s, dst) ∨
      (∃ failure, s.Stalls s.window.pending dst (s.process dst) failure) ∨
      ∃ size, s.Commits s.window.pending dst (s.process dst) size) := by
  rcases Nat.eq_zero_or_pos s.pendingSize with hzero | hpos
  · rw [process_noData hzero]
    exact ⟨h, .inl ⟨(pendingSize_eq s).symm.trans hzero, rfl⟩⟩
  have hbehind : s.encodeBehind s.window.pending dst
      = Encoder.encode s.encoder s.window.buffer s.window.start dst := by
    rw [encodeBehind, s.window.history_append_pending, s.window.size_history]
  rcases hencode : Encoder.encode s.encoder s.window.buffer s.window.start dst with
    ⟨failure | size, context, dst'⟩
  · have hprocess := process_of_error hpos hencode
    rw [hprocess]
    exact ⟨⟨h.serves, h.config_eq⟩,
      .inr (.inl ⟨failure, rfl, hbehind.trans hencode, rfl, .of_history rfl rfl⟩)⟩
  · obtain ⟨window, hprocess, hserves, hhistory, hpending⟩ := process_of_ok h.serves hpos hencode
    rw [hprocess]
    refine ⟨⟨hserves, h.config_eq⟩,
      .inr (.inr ⟨size, rfl, ⟨context, hbehind.trans hencode⟩, hpending, hhistory, ?_⟩)⟩
    show s.ledger.record s.pendingSize size = _
    rw [pendingSize_eq]

/-- A message that was just written stands behind the same history. -/
theorem Stalls.of_written {window : Growing} (hhistory : window.history = s.window.history)
    {message dst : Bytes} {o : Outcome Nat (Compressor ε × Bytes)} {failure : Failure}
    (h : Stalls { s with window } message dst o failure) : s.Stalls message dst o failure := by
  refine ⟨h.verdict_eq, ?_, h.pending_eq, .of_history (h.keeps.history_eq.trans hhistory)
    h.keeps.ledger_eq⟩
  have hfailed := h.failed
  rwa [encodeBehind, hhistory] at hfailed

theorem Commits.of_written {window : Growing} (hhistory : window.history = s.window.history)
    {message dst : Bytes} {o : Outcome Nat (Compressor ε × Bytes)} {size : Nat}
    (h : Commits { s with window } message dst o size) : s.Commits message dst o size := by
  have hencoded := h.encoded
  have hturn := h.history_eq
  rw [encodeBehind, hhistory] at hencoded
  rw [hhistory] at hturn
  exact ⟨h.verdict_eq, hencoded, h.pending_eq, hturn, h.ledger_eq⟩

/-- **A message that is compressed at once is too long, or there is nothing to send, or the encoder
decides**, who is given what was pending and the message behind it. -/
theorem compressMessage_ends (h : s.Ready config) (message dst : Bytes) :
    (s.compressMessage message dst).after.1.Ready config ∧
    (config.maxMessageSize < (s.window.pending ++ message).size ∧
        s.compressMessage message dst
          = .refused (.messageTooLarge s.pendingSize message.size config.maxMessageSize) (s, dst) ∨
      (s.window.pending ++ message).size = 0 ∧
        s.compressMessage message dst = .refused .noData (s, dst) ∨
      (s.window.pending ++ message).size ≤ config.maxMessageSize ∧
        ((∃ failure, s.Stalls (s.window.pending ++ message) dst
            (s.compressMessage message dst) failure) ∨
          ∃ size, s.Commits (s.window.pending ++ message) dst
            (s.compressMessage message dst) size)) := by
  obtain ⟨hready, ⟨hlong, hwrite⟩ | ⟨hfit, window, hwrite, hpending, hhistory⟩⟩ :=
    s.write_ends h message
  · have hcompress : s.compressMessage message dst = .refused
        (.messageTooLarge s.pendingSize message.size config.maxMessageSize) (s, dst) := by
      rw [compressMessage, hwrite]
      rfl
    rw [hcompress]
    exact ⟨h, .inl ⟨hlong, rfl⟩⟩
  · have hcompress : s.compressMessage message dst
        = ({ s with window } : Compressor ε).process dst := by
      rw [compressMessage, hwrite]
      rfl
    have hwritten : ({ s with window } : Compressor ε).Ready config := by
      rwa [hwrite] at hready
    obtain ⟨hprocessed, hends⟩ := process_ends hwritten dst
    rw [← hcompress] at hprocessed hends
    refine ⟨hprocessed, ?_⟩
    rw [show ({ s with window } : Compressor ε).window.pending = _ from hpending] at hends
    rcases hends with ⟨hzero, hnoData⟩ | ⟨failure, hstalls⟩ | ⟨size, hcommits⟩
    · -- Nothing was written, so the session is the one before the write.
      have hnothing : message.size = 0 := by
        rw [Array.size_append] at hzero
        omega
      have hsame : s.write message = .done () s := if_pos hnothing
      rw [hsame] at hwrite
      have hback : s = { s with window } := congrArg Outcome.after hwrite
      rw [← hback] at hnoData
      exact .inr (.inl ⟨hzero, hnoData⟩)
    · exact .inr (.inr ⟨hfit, .inl ⟨failure, hstalls.of_written hhistory⟩⟩)
    · exact .inr (.inr ⟨hfit, .inr ⟨size, hcommits.of_written hhistory⟩⟩)

/-! ### Any calls before -/

theorem Ready.serve (h : s.Ready config) (call : Call) : (s.serve call).1.Ready config := by
  cases call with
  | write src => exact (s.write_ends h src).1
  | process dst => exact (s.process_ends h dst).1
  | compressMessage message dst => exact (s.compressMessage_ends h message dst).1

theorem Ready.foldl_serveOne (calls : List Call) :
    ∀ {state : Compressor ε × Transcript}, state.1.Ready config →
      (calls.foldl Compressor.serveOne state).1.Ready config := by
  induction calls with
  | nil => intro state h; exact h
  | cons call rest ih => intro state h; exact ih (h.serve call)

/-- The session after any calls is still for its sizes, and its window serves it. -/
theorem run_ready (config : WindowConfig) (encoder : ε) (calls : List Call) :
    ((withEncoder config encoder).run calls).1.Ready config.clamped :=
  Ready.foldl_serveOne calls (withEncoder_ready config encoder)

/-! ### A message that is compressed at once -/

/-- The call fails and changes nothing but the context of the codec, or it commits the message
once, behind what was pending. -/
def Atomic (s : Compressor ε) (message dst : Bytes) : Prop :=
  let o := s.compressMessage message dst
  (∃ failure, o.verdict = .error failure ∧ s.Keeps o.after.1 ∧
    o.after.1.window.pending = s.window.pending) ∨
  ∃ size, s.Commits (s.window.pending ++ message) dst o size

theorem Commits.encode_ok {message dst : Bytes} {o : Outcome Nat (Compressor ε × Bytes)}
    {size : Nat} (h : s.Commits message dst o size) :
    (s.encodeBehind message dst).verdict = .ok size := by
  obtain ⟨context, hencoded⟩ := h.encoded
  rw [hencoded]
  rfl

theorem Stalls.encode_error {message dst : Bytes} {o : Outcome Nat (Compressor ε × Bytes)}
    {failure : Failure} (h : s.Stalls message dst o failure) :
    (s.encodeBehind message dst).verdict = .error failure := by
  rw [h.failed]
  rfl

/-- A call that is refused for the session's own reasons is atomic. -/
theorem Atomic.of_refused {message dst : Bytes} {failure : Failure}
    (h : s.compressMessage message dst = .refused failure (s, dst)) : s.Atomic message dst := by
  refine .inl ⟨failure, ?_, ?_, ?_⟩
  · rw [h]; rfl
  · rw [h]; exact .refl s
  · rw [h]; rfl

/-- What an encoder failed at stays, so only an empty message leaves no trace. -/
theorem Stalls.atomic_iff {message dst : Bytes} {failure : Failure}
    (h : s.Stalls (s.window.pending ++ message) dst (s.compressMessage message dst) failure) :
    s.Atomic message dst ↔ message.size = 0 := by
  have hpending := h.pending_eq
  constructor
  · rintro (⟨_, -, -, hsame⟩ | ⟨size, hcommits⟩)
    · have hsize := congrArg Array.size (hsame.symm.trans hpending)
      rw [Array.size_append] at hsize
      omega
    · exact nomatch h.verdict_eq.symm.trans hcommits.verdict_eq
  · intro hempty
    refine .inl ⟨failure, h.verdict_eq, h.keeps, ?_⟩
    rw [hpending, Array.eq_empty_of_size_eq_zero hempty, Array.append_empty]

/-- A session that serves is atomic but for an encoder that fails at a message that is not
empty. -/
theorem Ready.atomic_iff (h : s.Ready config) (message dst : Bytes) :
    s.Atomic message dst ↔
      message.size = 0 ∨ config.maxMessageSize < (s.window.pending ++ message).size ∨
        ∃ size, (s.encodeBehind (s.window.pending ++ message) dst).verdict = .ok size := by
  obtain ⟨-, ⟨hlong, hcall⟩ | ⟨hzero, hcall⟩ | ⟨hfit, ⟨failure, hstalls⟩ | ⟨size, hcommits⟩⟩⟩ :=
    s.compressMessage_ends h message dst
  · exact iff_of_true (.of_refused hcall) (.inr (.inl hlong))
  · rw [Array.size_append] at hzero
    exact iff_of_true (.of_refused hcall) (.inl (by omega))
  · rw [hstalls.atomic_iff]
    constructor
    · exact .inl
    · rintro (hempty | hlong | ⟨size, hencode⟩)
      · exact hempty
      · omega
      · exact nomatch hstalls.encode_error.symm.trans hencode
  · exact iff_of_true (.inr ⟨size, hcommits⟩) (.inr (.inr ⟨size, hcommits.encode_ok⟩))

/-- A call that is not atomic left the message behind. -/
theorem Ready.stalls (h : s.Ready config) {message dst : Bytes} (hnot : ¬ s.Atomic message dst) :
    ∃ failure, s.Stalls (s.window.pending ++ message) dst (s.compressMessage message dst)
      failure := by
  obtain ⟨-, ⟨-, hcall⟩ | ⟨-, hcall⟩ | ⟨-, hstalls | ⟨size, hcommits⟩⟩⟩ :=
    s.compressMessage_ends h message dst
  · exact absurd (.of_refused hcall) hnot
  · exact absurd (.of_refused hcall) hnot
  · exact hstalls
  · exact absurd (.inr ⟨size, hcommits⟩) hnot

/-- A call that succeeds commits what was pending and the message behind it. -/
theorem Ready.commits (h : s.Ready config) {message dst : Bytes} {size : Nat}
    (hok : (s.compressMessage message dst).verdict = .ok size) :
    s.Commits (s.window.pending ++ message) dst (s.compressMessage message dst) size := by
  obtain ⟨-, ⟨-, hcall⟩ | ⟨-, hcall⟩ | ⟨-, ⟨failure, hstalls⟩ | ⟨size', hcommits⟩⟩⟩ :=
    s.compressMessage_ends h message dst
  · rw [hcall] at hok
    exact nomatch hok
  · rw [hcall] at hok
    exact nomatch hok
  · exact nomatch hstalls.verdict_eq.symm.trans hok
  · obtain rfl : size' = size := Except.ok.inj (hcommits.verdict_eq.symm.trans hok)
    exact hcommits

/-- A frame that is made of what is pending commits just that. -/
theorem Ready.process_commits (h : s.Ready config) {dst : Bytes} {size : Nat}
    (hok : (s.process dst).verdict = .ok size) :
    s.Commits s.window.pending dst (s.process dst) size := by
  obtain ⟨-, ⟨-, hcall⟩ | ⟨failure, hstalls⟩ | ⟨size', hcommits⟩⟩ := s.process_ends h dst
  · rw [hcall] at hok
    exact nomatch hok
  · exact nomatch hstalls.verdict_eq.symm.trans hok
  · obtain rfl : size' = size := Except.ok.inj (hcommits.verdict_eq.symm.trans hok)
    exact hcommits

/-- **Compressing a message at once is atomic just if the message is empty, it is too long behind
what is pending, or the encoder makes a frame of it.**  After a call that is atomic and fails, the
same call sends the message once.  After one that is not, the message is pending: processing sends
it, and the same call sends it twice. -/
theorem compressMessage_atomic_iff (config : WindowConfig) (encoder : ε) (calls : List Call)
    (message dst : Bytes) :
    let s := ((withEncoder config encoder).run calls).1
    let whole := s.window.pending ++ message
    let failed := (s.compressMessage message dst).after.1
    (s.Atomic message dst ↔
      message.size = 0 ∨ config.clamped.maxMessageSize < whole.size ∨
        ∃ size, (s.encodeBehind whole dst).verdict = .ok size) ∧
    (s.Atomic message dst → ∀ failure, (s.compressMessage message dst).verdict = .error failure →
      ∀ dst' size, (failed.compressMessage message dst').verdict = .ok size →
        failed.Commits whole dst' (failed.compressMessage message dst') size) ∧
    (¬ s.Atomic message dst →
      (∃ failure, s.Stalls whole dst (s.compressMessage message dst) failure) ∧
      ∀ dst' size,
        ((failed.process dst').verdict = .ok size →
          failed.Commits whole dst' (failed.process dst') size) ∧
        ((failed.compressMessage message dst').verdict = .ok size →
          failed.Commits (whole ++ message) dst' (failed.compressMessage message dst') size)) := by
  intro s whole failed
  have hready : s.Ready config.clamped := run_ready config encoder calls
  have hfailed : failed.Ready config.clamped := (s.compressMessage_ends hready message dst).1
  refine ⟨hready.atomic_iff message dst, ?_, ?_⟩
  · rintro (⟨_, -, -, hsame⟩ | ⟨size, hcommits⟩) failure hfailure dst' size' hok
    · have hsent := hfailed.commits hok
      rwa [show failed.window.pending = s.window.pending from hsame] at hsent
    · exact nomatch hcommits.verdict_eq.symm.trans hfailure
  · intro hnot
    obtain ⟨failure, hstalls⟩ := hready.stalls hnot
    have hpending : failed.window.pending = whole := hstalls.pending_eq
    refine ⟨⟨failure, hstalls⟩, fun dst' size => ⟨fun hok => ?_, fun hok => ?_⟩⟩
    · rw [← hpending]
      exact hfailed.process_commits hok
    · rw [← hpending]
      exact hfailed.commits hok

/-- Behind two written bytes an encoder fails at a third.  Then the call for one frame sends three
bytes, and the same call four. -/
theorem compressMessage_atomic_iff_scripted :
    let s := ((withEncoder ⟨4096, 256⟩ (⟨[.fail .malformed], []⟩ : Scripted)).run
      [.write #[1, 2]]).1
    let failed := (s.compressMessage #[3] #[]).after.1
    ¬ s.Atomic #[3] #[] ∧
      failed.Commits #[1, 2, 3] #[] (failed.process #[]) 3 ∧
      failed.Commits #[1, 2, 3, 3] #[9] (failed.compressMessage #[3] #[9]) 4 := by
  intro s failed
  obtain ⟨hiff, -, hagain⟩ :=
    compressMessage_atomic_iff ⟨4096, 256⟩ (⟨[.fail .malformed], []⟩ : Scripted)
      [.write #[1, 2]] #[3] #[]
  have hnot : ¬ s.Atomic #[3] #[] := by
    rw [hiff]
    rintro (hempty | hlong | ⟨size, hencode⟩)
    · exact absurd hempty (by decide)
    · exact absurd hlong (by decide +kernel)
    · exact nomatch hencode
  have hsend := (hagain hnot).2
  exact ⟨hnot, (hsend #[] 3).1 rfl, (hsend #[9] 4).2 rfl⟩

/-- An encoder that fails at its first call leaves the message pending, and the next call sends it
twice. -/
theorem compressMessage_not_atomic :
    let s := withEncoder ⟨4096, 256⟩ (⟨[.fail .malformed], []⟩ : Scripted)
    let failed := (s.compressMessage #[1] #[]).after.1
    ¬ s.Atomic #[1] #[] ∧ failed.window.pending = #[1] ∧
      (failed.compressMessage #[1] #[]).verdict = .ok 2 ∧
      (failed.compressMessage #[1] #[]).after.2 = #[1, 1] := by
  intro s failed
  have hverdict : (s.compressMessage #[1] #[]).verdict = .error .malformed := rfl
  have hpending : failed.window.pending = #[1] := by decide +kernel
  refine ⟨?_, hpending, rfl, by decide +kernel⟩
  rintro (⟨_, -, -, hsame⟩ | ⟨size, hcommits⟩)
  · exact absurd (hpending.symm.trans hsame) (by decide +kernel)
  · exact nomatch hcommits.verdict_eq.symm.trans hverdict

end Compressor

end WindowedLz4
