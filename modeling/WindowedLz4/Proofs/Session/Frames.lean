/-
What a sending session emits.

A sender that remembers everything has all that was processed as one byte string, and
makes each frame behind the last bytes of it (`frameFor`, `framesOf`).  It has no
buffer, no cursor and no codec context.  A session answers every call as it does
(`process_frameFor`), so neither the splitting of a message into writes nor the places
where the buffer starts over can be told from the frames.

`Transcript` is what the caller of a session can write down: which writes were accepted
and which bytes a successful call appended.  The induction is on the calls, and
`Transcribes` is what it carries: the session follows what the transcript says was
processed and what it says is pending.
-/
import WindowedLz4.Proofs.Session.Compressor
namespace WindowedLz4

/-! ### A sender that remembers everything -/

/-- The pending message with `src` behind it, for messages of at most `room` bytes. -/
def extended (room : Nat) (pending src : Bytes) : Except Failure Bytes :=
  if room < pending.size + src.size then .error (.messageTooLarge pending.size src.size room)
  else .ok (pending ++ src)

/-- The frame of the pending message behind all of `past`, for dictionaries that reach back
`reach` bytes. -/
def frameFor (reach : Nat) (past pending : Bytes) : Except Failure Bytes :=
  if pending.size = 0 then .error .noData else .ok (frameOf (lastBytes reach past) pending)

/-- The frames of messages that follow one another. -/
def framesOf (reach : Nat) (past : Bytes) : List Bytes → List Bytes
  | [] => []
  | message :: rest =>
    frameOf (lastBytes reach past) message :: framesOf reach (past ++ message) rest

/-- One more message gets its frame behind all the others. -/
theorem framesOf_concat (reach : Nat) (messages : List Bytes) (message : Bytes) :
    ∀ past, framesOf reach past (messages ++ [message])
      = framesOf reach past messages
        ++ [frameOf (lastBytes reach (past ++ joined messages)) message] := by
  induction messages with
  | nil =>
      intro past
      rw [joined, Array.append_empty]
      rfl
  | cons first rest ih =>
      intro past
      rw [List.cons_append, framesOf, framesOf, ih, joined, Array.append_assoc, List.cons_append]

@[simp] theorem length_framesOf (reach : Nat) (messages : List Bytes) :
    ∀ past, (framesOf reach past messages).length = messages.length := by
  induction messages with
  | nil => intro past; rfl
  | cons message rest ih => intro past; rw [framesOf, List.length_cons, ih, List.length_cons]

/-- The frames of the later messages are made behind the earlier ones. -/
theorem framesOf_drop (reach : Nat) (messages : List Bytes) (count : Nat) (past : Bytes) :
    (framesOf reach past messages).drop count
      = framesOf reach (past ++ joined (messages.take count)) (messages.drop count) := by
  induction messages generalizing count past with
  | nil => simp [framesOf]
  | cons message rest ih =>
      cases count with
      | zero => simp [joined]
      | succ count =>
          rw [framesOf, List.drop_succ_cons, ih, List.take_succ_cons, joined, Array.append_assoc,
            List.drop_succ_cons]

/-- Only the last bytes of the past show in the frames. -/
theorem framesOf_congr {reach : Nat} (messages : List Bytes) :
    ∀ {past past' : Bytes}, lastBytes reach past = lastBytes reach past' →
      framesOf reach past messages = framesOf reach past' messages := by
  induction messages with
  | nil => intro past past' _; rfl
  | cons message rest ih =>
      intro past past' h
      rw [framesOf, framesOf, h, ih (lastBytes_append_congr h message)]

/-- A call appends the bytes of an answer to its destination, or fails as the answer does and
appends nothing. -/
def Outcome.Appends {σ : Type} (o : Outcome Nat (σ × Bytes)) (dst : Bytes)
    (answer : Except Failure Bytes) : Prop :=
  o.verdict = answer.map Array.size ∧ o.after.2 = dst ++ answer.toOption.getD #[]

/-! ### What a caller writes down -/

/-- The pending message, and the messages that were processed with the frames they became. -/
structure Transcript where
  pending : Bytes := #[]
  messages : List Bytes := []
  frames : List Bytes := []
  deriving DecidableEq, Repr, Inhabited

/-- What a caller gets to know from one call: the bytes that were accepted, and the frame that
was appended. -/
structure Reply where
  accepted : Bytes := #[]
  frame? : Option Bytes := none
  deriving DecidableEq, Repr, Inhabited

/-- A frame makes a message of all that was accepted since the last one. -/
def Transcript.note (t : Transcript) (reply : Reply) : Transcript :=
  let pending := t.pending ++ reply.accepted
  match reply.frame? with
  | none => { t with pending }
  | some frame => { messages := t.messages ++ [pending], frames := t.frames ++ [frame] }

theorem Transcript.exists_messages_note (t : Transcript) (reply : Reply) :
    ∃ later, (t.note reply).messages = t.messages ++ later := by
  obtain ⟨accepted, frame?⟩ := reply
  cases frame? with
  | none => exact ⟨[], (List.append_nil _).symm⟩
  | some frame => exact ⟨[t.pending ++ accepted], rfl⟩

namespace Compressor

/-- A call on a sending session. -/
inductive Call where
  | write (src : Bytes)
  | process (dst : Bytes)
  | compressMessage (message dst : Bytes)
  deriving DecidableEq, Repr, Inhabited

variable {ε : Type} [Encoder ε]

/-- What a successful call appended to its destination. -/
def appended (dst : Bytes) (o : Outcome Nat (Compressor ε × Bytes)) : Option Bytes :=
  o.verdict.toOption.map fun _ => o.after.2.extract dst.size o.after.2.size

/-- The bytes of a write that was accepted, and nothing of one that was refused. -/
def accepted (src : Bytes) (o : Outcome Unit (Compressor ε)) : Bytes :=
  o.verdict.toOption.elim #[] fun _ => src

/-- One call: the session after it, and what the caller gets to know. -/
def serve (s : Compressor ε) : Call → Compressor ε × Reply
  | .write src =>
    let o := s.write src
    (o.after, { accepted := accepted src o })
  | .process dst =>
    let o := s.process dst
    (o.after.1, { frame? := appended dst o })
  | .compressMessage message dst =>
    let o := s.compressMessage message dst
    (o.after.1, { accepted := accepted message (s.write message), frame? := appended dst o })

/-- One call, written down. -/
def serveOne (state : Compressor ε × Transcript) (call : Call) : Compressor ε × Transcript :=
  let next := state.1.serve call
  (next.1, state.2.note next.2)

/-- The session after some calls, and the transcript of them. -/
def run (s : Compressor ε) (calls : List Call) : Compressor ε × Transcript :=
  calls.foldl serveOne (s, {})

variable {s : Compressor Lz4Context} {config : WindowConfig} {reach : Nat}
  {past pending src message frame : Bytes} {failure : Failure}

/-! ### One call -/

theorem Follows.write_ok (h : s.Follows config reach past pending)
    (hmessage : extended config.maxMessageSize pending src = .ok message) :
    message = pending ++ src ∧ ∃ s', s.write src = .done () s' ∧
      s'.Follows config reach past message ∧ s'.window.history = s.window.history := by
  by_cases hlong : config.maxMessageSize < pending.size + src.size
  · simp [extended, hlong] at hmessage
  · obtain rfl : pending ++ src = message := by simpa [extended, hlong] using hmessage
    obtain ⟨s', hwrite, hfollows, hhistory, -⟩ := h.write_accepts (Nat.le_of_not_lt hlong)
    exact ⟨rfl, s', hwrite, hfollows, hhistory⟩

theorem Follows.write_error (h : s.Follows config reach past pending)
    (hmessage : extended config.maxMessageSize pending src = .error failure) :
    s.write src = .refused failure s := by
  by_cases hlong : config.maxMessageSize < pending.size + src.size
  · rw [extended, if_pos hlong, Except.error.injEq] at hmessage
    rw [h.write_refuses hlong, hmessage]
  · simp [extended, hlong] at hmessage

theorem Follows.process_ok (h : s.Follows config reach past pending)
    (hframe : frameFor reach past pending = .ok frame) (dst : Bytes) :
    frame = frameOf (lastBytes reach past) pending ∧ 0 < pending.size ∧
      ∃ s', s.process dst = .done frame.size (s', dst ++ frame) ∧
        s'.Follows config reach (past ++ pending) #[] ∧
        s'.window.history = (turn config.dictionarySize s.window.history pending).2 := by
  by_cases hzero : pending.size = 0
  · simp [frameFor, hzero] at hframe
  · have hpos := Nat.pos_of_ne_zero hzero
    rw [frameFor, if_neg hzero, Except.ok.injEq] at hframe
    obtain ⟨s', hprocess, hfollows, hhistory, -⟩ := h.process_frames hpos dst
    subst hframe
    exact ⟨rfl, hpos, s', hprocess, hfollows, hhistory⟩

theorem Follows.process_error (h : s.Follows config reach past pending)
    (hframe : frameFor reach past pending = .error failure) (dst : Bytes) :
    s.process dst = .refused failure (s, dst) := by
  by_cases hzero : pending.size = 0
  · rw [frameFor, if_pos hzero, Except.error.injEq] at hframe
    rw [h.process_noData hzero, hframe]
  · simp [frameFor, hzero] at hframe

/-- A write is accepted exactly as the sender that remembers everything accepts it. -/
theorem Follows.verdict_write (h : s.Follows config reach past pending) (src : Bytes) :
    (s.write src).verdict = (extended config.maxMessageSize pending src).map fun _ => () := by
  cases hmessage : extended config.maxMessageSize pending src with
  | ok message =>
      obtain ⟨-, s', hwrite, -⟩ := h.write_ok hmessage
      rw [hwrite]
      rfl
  | error failure =>
      rw [h.write_error hmessage]
      rfl

/-- Processing appends the frame of the pending message. -/
theorem Follows.process_appends (h : s.Follows config reach past pending) (dst : Bytes) :
    (s.process dst).Appends dst (frameFor reach past pending) := by
  cases hframe : frameFor reach past pending with
  | ok frame =>
      obtain ⟨-, -, s', hprocess, -⟩ := h.process_ok hframe dst
      rw [hprocess]
      exact ⟨rfl, rfl⟩
  | error failure =>
      rw [h.process_error hframe]
      exact ⟨rfl, Array.append_empty.symm⟩

/-- A message that is compressed at once is written and then processed. -/
theorem Follows.compressMessage_appends (h : s.Follows config reach past pending)
    (message dst : Bytes) :
    (s.compressMessage message dst).Appends dst
      ((extended config.maxMessageSize pending message).bind (frameFor reach past)) := by
  unfold compressMessage
  cases hmessage : extended config.maxMessageSize pending message with
  | ok whole =>
      obtain ⟨-, s', hwrite, hfollows, -⟩ := h.write_ok hmessage
      rw [hwrite]
      exact hfollows.process_appends dst
  | error failure =>
      rw [h.write_error hmessage]
      exact ⟨rfl, Array.append_empty.symm⟩

/-- What processing shows to the caller: nothing, and then the session is as it was, or the
frame of the pending message. -/
private theorem Follows.process_cases (h : s.Follows config reach past pending) (dst : Bytes) :
    (s.process dst).after.1 = s ∧ appended dst (s.process dst) = none ∨
    0 < pending.size ∧
      appended dst (s.process dst) = some (frameOf (lastBytes reach past) pending) ∧
      (s.process dst).after.1.Follows config reach (past ++ pending) #[] ∧
      (s.process dst).after.1.window.history
        = (turn config.dictionarySize s.window.history pending).2 := by
  cases hframe : frameFor reach past pending with
  | ok frame =>
      obtain ⟨rfl, hpos, s', hprocess, hfollows, hhistory⟩ := h.process_ok hframe dst
      rw [hprocess]
      exact .inr ⟨hpos, congrArg some (extract_append_size dst _), hfollows, hhistory⟩
  | error failure =>
      rw [h.process_error hframe]
      exact .inl ⟨rfl, rfl⟩

/-- **A call adds to the pending message, or makes a frame of it.** -/
theorem Follows.serve_cases (h : s.Follows config reach past pending) (call : Call) :
    ∃ s' accepted,
      s.serve call = (s', { accepted }) ∧
        s'.Follows config reach past (pending ++ accepted) ∧
        s'.window.history = s.window.history ∨
      s.serve call
          = (s', { accepted, frame? := frameOf (lastBytes reach past) (pending ++ accepted) }) ∧
        0 < (pending ++ accepted).size ∧
        (pending ++ accepted).size ≤ config.maxMessageSize ∧
        s'.Follows config reach (past ++ (pending ++ accepted)) #[] ∧
        s'.window.history
          = (turn config.dictionarySize s.window.history (pending ++ accepted)).2 := by
  cases call with
  | write src =>
      cases hmessage : extended config.maxMessageSize pending src with
      | ok message =>
          obtain ⟨rfl, s', hwrite, hfollows, hhistory⟩ := h.write_ok hmessage
          exact ⟨s', src, .inl ⟨by rw [serve, hwrite]; rfl, hfollows, hhistory⟩⟩
      | error failure =>
          refine ⟨s, #[], .inl ⟨by rw [serve, h.write_error hmessage]; rfl, ?_, rfl⟩⟩
          rwa [Array.append_empty]
  | process dst =>
      refine ⟨(s.process dst).after.1, #[], ?_⟩
      rw [Array.append_empty, serve]
      rcases h.process_cases dst with ⟨hsame, hnone⟩ | ⟨hpos, hframe, hfollows, hhistory⟩
      · rw [hsame, hnone]
        exact .inl ⟨rfl, h, rfl⟩
      · rw [hframe]
        exact .inr ⟨rfl, hpos, h.size_pending_le, hfollows, hhistory⟩
  | compressMessage message dst =>
      cases hmessage : extended config.maxMessageSize pending message with
      | ok whole =>
          obtain ⟨rfl, s', hwrite, hfollows, hhistory⟩ := h.write_ok hmessage
          have hserve : s.serve (.compressMessage message dst)
              = ((s'.process dst).after.1,
                  { accepted := message, frame? := appended dst (s'.process dst) }) := by
            rw [serve, compressMessage, hwrite]
            rfl
          refine ⟨(s'.process dst).after.1, message, ?_⟩
          rcases hfollows.process_cases dst with ⟨hsame, hnone⟩ | ⟨hpos, hframe, hfollows', hturn⟩
          · rw [hserve, hsame, hnone]
            exact .inl ⟨rfl, hfollows, hhistory⟩
          · rw [hserve, hframe, ← hhistory]
            exact .inr ⟨rfl, hpos, hfollows.size_pending_le, hfollows', hturn⟩
      | error failure =>
          refine ⟨s, #[], .inl ⟨?_, ?_, rfl⟩⟩
          · rw [serve, compressMessage, h.write_error hmessage]
            rfl
          · rwa [Array.append_empty]

/-! ### Runs -/

/-- The session follows what the transcript says, and the frames are those of the messages. -/
structure Transcribes (s : Compressor Lz4Context) (config : WindowConfig) (reach : Nat)
    (t : Transcript) : Prop where
  follows : s.Follows config reach (joined t.messages) t.pending
  frames_eq : t.frames = framesOf reach #[] t.messages

theorem lz4_transcribes (config : WindowConfig) :
    (lz4 config).Transcribes config.clamped config.reach {} :=
  ⟨withEncoder_follows config config.clamped, rfl⟩

variable {t : Transcript}

theorem Transcribes.serveOne (h : s.Transcribes config reach t) (call : Call) :
    (Compressor.serveOne (s, t) call).1.Transcribes config reach
      (Compressor.serveOne (s, t) call).2 := by
  unfold Compressor.serveOne
  obtain ⟨s', accepted, ⟨hserve, hfollows, -⟩ | ⟨hserve, -, -, hfollows, -⟩⟩ :=
    h.follows.serve_cases call
  · rw [hserve]
    exact ⟨hfollows, h.frames_eq⟩
  · rw [hserve]
    refine ⟨?_, ?_⟩
    · show s'.Follows config reach (joined (t.messages ++ [t.pending ++ accepted])) #[]
      rwa [joined_concat]
    · show t.frames ++ [_] = framesOf reach #[] (t.messages ++ [t.pending ++ accepted])
      rw [framesOf_concat, Array.empty_append, h.frames_eq]

theorem Transcribes.foldl_serveOne (calls : List Call) :
    ∀ {state : Compressor Lz4Context × Transcript}, state.1.Transcribes config reach state.2 →
      (calls.foldl Compressor.serveOne state).1.Transcribes config reach
        (calls.foldl Compressor.serveOne state).2 := by
  induction calls with
  | nil => intro state h; exact h
  | cons call rest ih => intro state h; exact ih (h.serveOne call)

theorem run_transcribes (config : WindowConfig) (calls : List Call) :
    ((lz4 config).run calls).1.Transcribes config.clamped config.reach
      ((lz4 config).run calls).2 :=
  Transcribes.foldl_serveOne calls (lz4_transcribes config)

/-- The messages that are written down stay. -/
theorem exists_messages_foldl_serveOne (calls : List Call) :
    ∀ state : Compressor ε × Transcript, ∃ later,
      (calls.foldl serveOne state).2.messages = state.2.messages ++ later := by
  induction calls with
  | nil => intro state; exact ⟨[], (List.append_nil _).symm⟩
  | cons call rest ih =>
      intro state
      obtain ⟨later, hlater⟩ := ih (serveOne state call)
      obtain ⟨first, hfirst⟩ : ∃ first, (serveOne state call).2.messages
          = state.2.messages ++ first := state.2.exists_messages_note _
      refine ⟨first ++ later, ?_⟩
      rw [List.foldl_cons, hlater, hfirst, List.append_assoc]

/-- The frames of later calls are made behind the messages of the earlier ones. -/
theorem frames_run_append (config : WindowConfig) (calls more : List Call) :
    ((lz4 config).run (calls ++ more)).2.frames.drop ((lz4 config).run calls).2.messages.length
      = framesOf config.reach (joined ((lz4 config).run calls).2.messages)
          (((lz4 config).run (calls ++ more)).2.messages.drop
            ((lz4 config).run calls).2.messages.length) := by
  obtain ⟨later, hlater⟩ := exists_messages_foldl_serveOne more ((lz4 config).run calls)
  have hrun : (lz4 config).run (calls ++ more)
      = more.foldl serveOne ((lz4 config).run calls) := List.foldl_append
  rw [(run_transcribes config (calls ++ more)).frames_eq, framesOf_drop, Array.empty_append,
    hrun, hlater, List.take_left]

/--
**A sending session is a sender that remembers everything.**

After any calls, the next one is accepted and answered from the pending message and from
the last bytes of all that was processed.  The frames so far are the frames of the
messages so far, each behind the messages before it, whatever the writes were that the
messages came in.  And a second session that reaches equally far back emits the same
frames for the same messages, as soon as the last bytes of what the two have processed
are the same: neither its dictionary size nor where its buffer starts over matters.
-/
theorem process_frameFor (config : WindowConfig) (calls : List Call) :
    let s := ((lz4 config).run calls).1
    let t := ((lz4 config).run calls).2
    (∀ src, (s.write src).verdict
      = (extended config.clamped.maxMessageSize t.pending src).map fun _ => ()) ∧
    (∀ dst, (s.process dst).Appends dst (frameFor config.reach (joined t.messages) t.pending)) ∧
    (∀ message dst, (s.compressMessage message dst).Appends dst
      ((extended config.clamped.maxMessageSize t.pending message).bind
        (frameFor config.reach (joined t.messages)))) ∧
    t.frames = framesOf config.reach #[] t.messages ∧
    ∀ (config' : WindowConfig) (calls' more more' : List Call),
      let t' := ((lz4 config').run calls').2
      let whole := ((lz4 config).run (calls ++ more)).2
      let whole' := ((lz4 config').run (calls' ++ more')).2
      config'.reach = config.reach →
      lastBytes config.reach (joined t'.messages) = lastBytes config.reach (joined t.messages) →
      whole'.messages.drop t'.messages.length = whole.messages.drop t.messages.length →
      whole'.frames.drop t'.messages.length = whole.frames.drop t.messages.length := by
  intro s t
  have htranscribes : s.Transcribes config.clamped config.reach t := run_transcribes config calls
  refine ⟨?_, ?_, ?_, htranscribes.frames_eq, ?_⟩
  · exact htranscribes.follows.verdict_write
  · exact htranscribes.follows.process_appends
  · exact htranscribes.follows.compressMessage_appends
  · intro config' calls' more more' t' whole whole' hreach hpast hmessages
    rw [frames_run_append config calls more, frames_run_append config' calls' more', hmessages,
      hreach]
    exact framesOf_congr _ hpast

/-- Two sessions of different sizes, the first of which is given its messages in pieces, emit
the same second frame. -/
theorem process_frameFor_pieces :
    let config : WindowConfig := ⟨65535, 4096⟩
    let config' : WindowConfig := ⟨1000000, 300⟩
    let calls : List Call := [.write #[1], .write #[2], .process #[]]
    let calls' : List Call := [.compressMessage #[1, 2] #[5]]
    let more : List Call := [.write #[3], .process #[], .write #[], .process #[7]]
    let more' : List Call := [.compressMessage #[3] #[8, 8]]
    let t := ((lz4 config).run calls).2
    let t' := ((lz4 config').run calls').2
    let whole := ((lz4 config).run (calls ++ more)).2
    let whole' := ((lz4 config').run (calls' ++ more')).2
    (config'.reach = config.reach ∧
      lastBytes config.reach (joined t'.messages) = lastBytes config.reach (joined t.messages) ∧
      whole'.messages.drop t'.messages.length = whole.messages.drop t.messages.length) ∧
    whole'.frames.drop t'.messages.length = whole.frames.drop t.messages.length := by
  intro config config' calls calls' more more' t t' whole whole'
  have hreach : config'.reach = config.reach := by decide
  have hpast : lastBytes config.reach (joined t'.messages)
      = lastBytes config.reach (joined t.messages) := by decide
  have hmessages : whole'.messages.drop t'.messages.length
      = whole.messages.drop t.messages.length := by decide
  obtain ⟨-, -, -, -, hsame⟩ := process_frameFor config calls
  exact ⟨⟨hreach, hpast, hmessages⟩, hsame config' calls' more more' hreach hpast hmessages⟩

end Compressor

end WindowedLz4
