/-
A sender and a receiver with a channel between them.

The two never see each other.  What keeps them together is that a session's window is a
function of the messages alone (`historyAfter`): the sender has turned its history with
all the messages it processed, the receiver with those it was given the frames of, and
the frames in the channel are the frames of the rest (`Agrees`).  So the oldest frame is
always one that the receiver can decode, and when it has, it stands exactly where the
sender stood when it emitted that frame.

A stray string that is rejected, a write that is refused and a call without data change
none of this, which is why they may come at any point of a run.
-/
import WindowedLz4.Proofs.Session.Frames
import WindowedLz4.Proofs.Session.Messages
namespace WindowedLz4

/-! ### Where a session stands -/

/-- The cursor, the bytes before it, and what is kept of the windows that are gone. -/
structure Standing where
  cursor : Nat
  before : Bytes
  tail : Bytes
  deriving DecidableEq, Repr, Inhabited

def Compressor.standing (s : Compressor Lz4Context) : Standing :=
  ⟨s.window.start, s.window.history, s.encoder.history.tail⟩

def Decompressor.standing (s : Decompressor Lz4Context) : Standing :=
  ⟨s.cursor, s.window.history, s.decoder.history.tail⟩

/-- The history of a window that was turned with these messages from another history on. -/
def historyFrom (dictionarySize : Nat) (history : Bytes) (messages : List Bytes) : Bytes :=
  messages.foldl (fun history message => (turn dictionarySize history message).2) history

/-- The history of a new window that was turned with these messages. -/
def historyAfter (dictionarySize : Nat) (messages : List Bytes) : Bytes :=
  historyFrom dictionarySize #[] messages

theorem historyAfter_concat (dictionarySize : Nat) (messages : List Bytes) (message : Bytes) :
    historyAfter dictionarySize (messages ++ [message])
      = (turn dictionarySize (historyAfter dictionarySize messages) message).2 := by
  rw [historyAfter, historyFrom, List.foldl_append]
  rfl

/-- Where a session stands after these messages. -/
def standingAfter (dictionarySize reach : Nat) (messages : List Bytes) : Standing :=
  let before := historyAfter dictionarySize messages
  let past := joined messages
  ⟨before.size, before, lastBytes reach (past.extract 0 (past.size - before.size))⟩

/-- Where a session stands at first, and after each of these messages. -/
def standingsAfter (dictionarySize reach : Nat) (messages : List Bytes) : List Standing :=
  (List.range (messages.length + 1)).map fun count =>
    standingAfter dictionarySize reach (messages.take count)

theorem standingsAfter_concat (dictionarySize reach : Nat) (messages : List Bytes)
    (message : Bytes) :
    standingsAfter dictionarySize reach (messages ++ [message])
      = standingsAfter dictionarySize reach messages
        ++ [standingAfter dictionarySize reach (messages ++ [message])] := by
  have hlength : (messages ++ [message]).length = messages.length + 1 := by simp
  have htake : ∀ count ∈ List.range (messages.length + 1),
      standingAfter dictionarySize reach ((messages ++ [message]).take count)
        = standingAfter dictionarySize reach (messages.take count) := by
    intro count hcount
    rw [List.take_append_of_le_length (Nat.le_of_lt_succ (List.mem_range.mp hcount))]
  rw [standingsAfter, List.range_succ, List.map_append, List.map_singleton, List.take_length,
    hlength, List.map_congr_left htake]
  rfl

theorem getElem?_standingsAfter (dictionarySize reach : Nat) {messages : List Bytes} {count : Nat}
    (h : count ≤ messages.length) :
    (standingsAfter dictionarySize reach messages)[count]?
      = some (standingAfter dictionarySize reach (messages.take count)) := by
  rw [standingsAfter, List.getElem?_map, List.getElem?_range (Nat.lt_succ_of_le h)]
  rfl

section Standing

variable {config : WindowConfig} {reach : Nat} {messages : List Bytes} {pending : Bytes}

theorem Compressor.Follows.standing_eq {s : Compressor Lz4Context}
    (h : s.Follows config reach (joined messages) pending)
    (hhistory : s.window.history = historyAfter config.dictionarySize messages) :
    s.standing = standingAfter config.dictionarySize reach messages := by
  have htail := h.holds.tail_eq
  rw [h.reach_eq, hhistory] at htail
  rw [Compressor.standing, standingAfter, ← s.window.size_history, hhistory, htail]

theorem Decompressor.Follows.standing_eq {s : Decompressor Lz4Context}
    (h : s.Follows config reach (joined messages))
    (hhistory : s.window.history = historyAfter config.dictionarySize messages) :
    s.standing = standingAfter config.dictionarySize reach messages := by
  have htail := h.holds.tail_eq
  rw [h.reach_eq, hhistory] at htail
  rw [Decompressor.standing, standingAfter, cursor, ← h.serves.size_history, hhistory, htail]

end Standing

/-! ### The link -/

/-- A sender, a receiver, and what there is to tell of them. -/
structure Link where
  sender : Compressor Lz4Context
  receiver : Decompressor Lz4Context
  /-- The frames that were emitted and not taken yet, the oldest first. -/
  channel : List Bytes := []
  /-- What the caller of the sender has written down. -/
  transcript : Transcript := {}
  /-- Where the sender stood as it was new, and after each of its frames. -/
  standings : List Standing
  /-- How each call of the receiver with a frame from the channel ended. -/
  verdicts : List (Except Failure Nat) := []
  /-- All that the calls of the receiver appended, whether they succeeded or not. -/
  delivered : Bytes := #[]

namespace Link

/-- A call of the sender, the oldest frame for the receiver, or a string from elsewhere. -/
inductive Event where
  | send (call : Compressor.Call)
  | take (dst : Bytes)
  | stray (frame dst : Bytes)
  deriving DecidableEq, Repr, Inhabited

/-- Two sessions before any call. -/
def between (sender : Compressor Lz4Context) (receiver : Decompressor Lz4Context) : Link where
  sender
  receiver
  standings := [sender.standing]

/-- Two new sessions of one configuration. -/
def lz4 (config : WindowConfig) : Link :=
  between (.lz4 config) (.lz4 config)

/-- Two new sessions of one configuration, with contexts of another. -/
def withContexts (config codec : WindowConfig) : Link :=
  between (.withEncoder config (.ofConfig codec)) (.withDecoder config (.ofConfig codec))

/-- The link after the receiver was called. -/
def received (l : Link) (dst : Bytes)
    (o : Outcome Nat (Decompressor Lz4Context × Bytes)) : Link :=
  { l with
    receiver := o.after.1
    delivered := l.delivered ++ o.after.2.extract dst.size o.after.2.size }

/-- One event.  Nothing is taken from an empty channel, and a stray string that the receiver
would not reject does not come up. -/
def step (l : Link) : Event → Link
  | .send call =>
    let (sender, reply) := l.sender.serve call
    { l with
      sender
      channel := l.channel ++ reply.frame?.toList
      transcript := l.transcript.note reply
      standings := l.standings ++ reply.frame?.toList.map fun _ => sender.standing }
  | .take dst =>
    match l.channel with
    | [] => l
    | frame :: channel =>
      let o := l.receiver.process dst frame
      { l.received dst o with channel, verdicts := l.verdicts ++ [o.verdict] }
  | .stray frame dst =>
    let o := l.receiver.process dst frame
    match o.verdict with
    | .ok _ => l
    | .error _ => l.received dst o

/-- The link after some events. -/
def run (l : Link) (events : List Event) : Link :=
  events.foldl step l

/-- The messages of the frames that were taken. -/
def taken (l : Link) : List Bytes :=
  l.transcript.messages.take l.verdicts.length

/-- Nothing is lost between the two. -/
structure Lossless (l : Link) : Prop where
  /-- Every frame of the channel was accepted, as the message it was made of. -/
  verdicts_eq : l.verdicts = l.taken.map fun message => .ok message.size
  /-- What was delivered is the messages of the frames that were taken, and nothing else. -/
  delivered_eq : l.delivered = joined l.taken
  /-- The channel holds the other frames. -/
  channel_eq : l.channel = l.transcript.frames.drop l.verdicts.length
  /-- The receiver stands where the sender stood after the last frame that was taken. -/
  standing_eq : l.standings[l.verdicts.length]? = some l.receiver.standing

/-! ### What an event preserves -/

/-- Both sides follow the same messages, the receiver as many of them as it was given the
frames of. -/
structure Agrees (l : Link) (config : WindowConfig) (reach : Nat) : Prop where
  sends : l.sender.Transcribes config reach l.transcript
  sender_history :
    l.sender.window.history = historyAfter config.dictionarySize l.transcript.messages
  fits : ∀ message ∈ l.transcript.messages,
    0 < message.size ∧ message.size ≤ config.maxMessageSize
  receives : l.receiver.Follows config reach (joined l.taken)
  receiver_history : l.receiver.window.history = historyAfter config.dictionarySize l.taken
  length_verdicts_le : l.verdicts.length ≤ l.transcript.messages.length
  verdicts_eq : l.verdicts = l.taken.map fun message => .ok message.size
  delivered_eq : l.delivered = joined l.taken
  channel_eq : l.channel = l.transcript.frames.drop l.verdicts.length
  standings_eq :
    l.standings = standingsAfter config.dictionarySize reach l.transcript.messages

variable {l : Link} {config : WindowConfig} {reach : Nat}

theorem withContexts_agrees (config codec : WindowConfig) :
    (withContexts config codec).Agrees config.clamped (min codec.dictionarySize maxDistance) := by
  have hsends := Compressor.withEncoder_follows config codec
  have hreceives := Decompressor.withDecoder_follows config codec
  have hstanding : (withContexts config codec).sender.standing
      = standingAfter config.clamped.dictionarySize (min codec.dictionarySize maxDistance) [] :=
    Compressor.Follows.standing_eq hsends rfl
  refine ⟨⟨hsends, rfl⟩, rfl, by simp [withContexts, between], hreceives, ?_, Nat.le_refl 0, rfl,
    rfl, rfl, congrArg (fun standing => [standing]) hstanding⟩
  exact Array.extract_empty_of_stop_le_start (Nat.le_refl 0)

theorem Agrees.lossless (h : l.Agrees config reach) : l.Lossless := by
  refine ⟨h.verdicts_eq, h.delivered_eq, h.channel_eq, ?_⟩
  rw [h.standings_eq, getElem?_standingsAfter _ _ h.length_verdicts_le,
    h.receives.standing_eq h.receiver_history]
  rfl

/-- The link once the sender has emitted the frame of a message. -/
private def emitted (l : Link) (sender : Compressor Lz4Context) (message frame : Bytes) : Link :=
  { l with
    sender
    channel := l.channel ++ [frame]
    transcript := {
      messages := l.transcript.messages ++ [message]
      frames := l.transcript.frames ++ [frame] }
    standings := l.standings ++ [sender.standing] }

/-- A message goes to the end of what is to be taken. -/
private theorem Agrees.emitted (h : l.Agrees config reach) {sender : Compressor Lz4Context}
    {message frame : Bytes}
    (hsends : sender.Transcribes config reach (l.emitted sender message frame).transcript)
    (hhistory : sender.window.history
      = (turn config.dictionarySize l.sender.window.history message).2)
    (hpos : 0 < message.size) (hfit : message.size ≤ config.maxMessageSize) :
    (l.emitted sender message frame).Agrees config reach := by
  have htaken : (l.emitted sender message frame).taken = l.taken :=
    List.take_append_of_le_length h.length_verdicts_le
  have hafter : sender.window.history
      = historyAfter config.dictionarySize (l.transcript.messages ++ [message]) := by
    rw [historyAfter_concat, ← h.sender_history]
    exact hhistory
  have hlength : l.verdicts.length ≤ l.transcript.frames.length := by
    rw [h.sends.frames_eq, length_framesOf]
    exact h.length_verdicts_le
  refine ⟨hsends, hafter, ?_, ?_, ?_, ?_, ?_, ?_, ?_, ?_⟩
  · intro m hm
    rcases List.mem_append.mp hm with hm | hm
    · exact h.fits m hm
    · rw [List.mem_singleton.mp hm]
      exact ⟨hpos, hfit⟩
  · rw [htaken]
    exact h.receives
  · rw [htaken]
    exact h.receiver_history
  · show l.verdicts.length ≤ (l.transcript.messages ++ [message]).length
    rw [List.length_append]
    exact Nat.le_add_right_of_le h.length_verdicts_le
  · rw [htaken]
    exact h.verdicts_eq
  · rw [htaken]
    exact h.delivered_eq
  · show l.channel ++ [frame] = (l.transcript.frames ++ [frame]).drop l.verdicts.length
    rw [List.drop_append_of_le_length hlength, h.channel_eq]
  · have hstanding : sender.standing = standingAfter config.dictionarySize reach
        (l.transcript.messages ++ [message]) := hsends.follows.standing_eq hafter
    show l.standings ++ [sender.standing] = standingsAfter _ _ (l.transcript.messages ++ [message])
    rw [standingsAfter_concat, h.standings_eq, hstanding]

/-- A call of the sender leaves the receiver alone, and a frame goes to the end of the channel. -/
theorem Agrees.send (h : l.Agrees config reach) (call : Compressor.Call) :
    (l.step (.send call)).Agrees config reach := by
  have hsends : (l.step (.send call)).sender.Transcribes config reach
      (l.step (.send call)).transcript := h.sends.serveOne call
  obtain ⟨s', accepted, ⟨hserve, -, hhistory⟩ | ⟨hserve, hpos, hfit, -, hhistory⟩⟩ :=
    h.sends.follows.serve_cases call
  · have hstep : l.step (.send call) = { l with
        sender := s'
        transcript := { l.transcript with pending := l.transcript.pending ++ accepted } } := by
      simp [step, hserve, Transcript.note]
    rw [hstep] at hsends ⊢
    exact { h with sends := hsends, sender_history := hhistory.trans h.sender_history }
  · have hstep : l.step (.send call) = l.emitted s' (l.transcript.pending ++ accepted)
        (frameOf (lastBytes reach (joined l.transcript.messages))
          (l.transcript.pending ++ accepted)) := by
      simp [step, hserve, Transcript.note, Link.emitted]
    rw [hstep] at hsends ⊢
    exact h.emitted hsends hhistory hpos hfit

/-- The oldest frame in the channel is that of the first message that was not taken. -/
theorem Agrees.channel_cons (h : l.Agrees config reach) {frame : Bytes} {channel : List Bytes}
    (hchannel : l.channel = frame :: channel) :
    ∃ message later, l.transcript.messages.drop l.verdicts.length = message :: later ∧
      frame = frameOf (lastBytes reach (joined l.taken)) message := by
  have hframes : frame :: channel = framesOf reach (joined l.taken)
      (l.transcript.messages.drop l.verdicts.length) := by
    rw [← hchannel, h.channel_eq, h.sends.frames_eq, framesOf_drop, Array.empty_append]
    rfl
  cases hrest : l.transcript.messages.drop l.verdicts.length with
  | nil =>
      simp [hrest, framesOf] at hframes
  | cons message later =>
      rw [hrest, framesOf, List.cons.injEq] at hframes
      exact ⟨message, later, rfl, hframes.1⟩

/-- The link once the receiver has accepted the oldest frame as a message. -/
private def accepted (l : Link) (receiver : Decompressor Lz4Context) (message : Bytes) : Link :=
  { l with
    receiver
    channel := l.channel.tail
    verdicts := l.verdicts ++ [.ok message.size]
    delivered := l.delivered ++ message }

/-- The first message that was not taken joins those that were. -/
private theorem Agrees.accepted (h : l.Agrees config reach) {receiver : Decompressor Lz4Context}
    {message : Bytes} {later : List Bytes}
    (hrest : l.transcript.messages.drop l.verdicts.length = message :: later)
    (hfollows : receiver.Follows config reach (joined l.taken ++ message))
    (hhistory : receiver.window.history
      = (turn config.dictionarySize l.receiver.window.history message).2) :
    (l.accepted receiver message).Agrees config reach := by
  have hverdicts : (l.accepted receiver message).verdicts.length = l.verdicts.length + 1 :=
    List.length_append
  have htaken : (l.accepted receiver message).taken = l.taken ++ [message] := by
    rw [taken, hverdicts]
    show l.transcript.messages.take (l.verdicts.length + 1) = _
    rw [List.take_add_one, ← List.head?_drop, hrest]
    rfl
  refine ⟨h.sends, h.sender_history, h.fits, ?_, ?_, ?_, ?_, ?_, ?_, h.standings_eq⟩
  · rw [htaken, joined_concat]
    exact hfollows
  · rw [htaken, historyAfter_concat, ← h.receiver_history]
    exact hhistory
  · have hlength := congrArg List.length hrest
    rw [List.length_drop, List.length_cons] at hlength
    rw [hverdicts]
    show l.verdicts.length + 1 ≤ l.transcript.messages.length
    omega
  · rw [htaken, List.map_append, ← h.verdicts_eq]
    rfl
  · rw [htaken, joined_concat, ← h.delivered_eq]
    rfl
  · rw [hverdicts, ← List.tail_drop]
    exact congrArg List.tail h.channel_eq

theorem step_take_nil (h : l.channel = []) (dst : Bytes) : l.step (.take dst) = l := by
  rw [step, h]

/-- The oldest frame is delivered as the message it was made of. -/
theorem Agrees.take (h : l.Agrees config reach) (dst : Bytes) :
    (l.step (.take dst)).Agrees config reach := by
  cases hchannel : l.channel with
  | nil =>
      rw [step_take_nil hchannel]
      exact h
  | cons frame channel =>
      obtain ⟨message, later, hrest, rfl⟩ := h.channel_cons hchannel
      have hmem : message ∈ l.transcript.messages :=
        List.mem_of_mem_drop (hrest ▸ List.mem_cons_self)
      obtain ⟨hpos, hfit⟩ := h.fits message hmem
      obtain ⟨s', hprocess, hfollows, hhistory, -⟩ := h.receives.process_delivers
        (size_frameOf_pos _ _) (expandFrame_frameOf _ hfit) hpos dst
      have hstep : l.step (.take dst) = l.accepted s' message := by
        simp only [step, hchannel, hprocess, received, Outcome.done, extract_append_size,
          Link.accepted, List.tail_cons]
      rw [hstep]
      exact h.accepted hrest hfollows hhistory

/-- A stray string that would be accepted does not come up. -/
theorem step_stray_of_done {frame dst : Bytes} {size : Nat}
    {after : Decompressor Lz4Context × Bytes}
    (h : l.receiver.process dst frame = .done size after) : l.step (.stray frame dst) = l := by
  rw [step, h]
  rfl

/-- One that is rejected shows in the receiver alone. -/
theorem step_stray_of_refused {frame dst : Bytes} {failure : Failure}
    {receiver : Decompressor Lz4Context}
    (h : l.receiver.process dst frame = .refused failure (receiver, dst)) :
    l.step (.stray frame dst) = { l with receiver } := by
  simp [step, h, received, Outcome.refused]

/-- A stray string that is rejected changes nothing of what is held. -/
theorem Agrees.stray (h : l.Agrees config reach) (frame dst : Bytes) :
    (l.step (.stray frame dst)).Agrees config reach := by
  cases hmessage : messageOf reach config.maxMessageSize (joined l.taken) frame with
  | ok message =>
      obtain ⟨s', hprocess, -⟩ := h.receives.process_messageOf_ok hmessage dst
      rw [step_stray_of_done hprocess]
      exact h
  | error failure =>
      obtain ⟨s', hprocess, hfollows, hhistory, -⟩ :=
        h.receives.process_messageOf_error hmessage dst
      rw [step_stray_of_refused hprocess]
      exact { h with
        receives := hfollows
        receiver_history := hhistory.trans h.receiver_history }

theorem Agrees.step (h : l.Agrees config reach) (event : Event) :
    (l.step event).Agrees config reach := by
  cases event with
  | send call => exact h.send call
  | take dst => exact h.take dst
  | stray frame dst => exact h.stray frame dst

theorem Agrees.run (events : List Event) :
    ∀ {l : Link}, l.Agrees config reach → (l.run events).Agrees config reach := by
  induction events with
  | nil => intro l h; exact h
  | cons event rest ih => intro l h; exact ih (h.step event)

/--
**A stream arrives whole, in order, and nothing else does.**

Whatever two sessions of one configuration are made to do, in whatever order: every
frame from the channel is accepted, the plaintext that was delivered is the messages of
the frames that were taken, each the writes it was made of, and the receiver stands where
the sender stood after the last of them, with the same cursor, the same bytes before it
and the same tail of the windows that are gone.  The contexts may have been made for any
dictionary size, as long as it is one.
-/
theorem run_lossless (config codec : WindowConfig) (events : List Event) :
    ((lz4 config).run events).Lossless ∧ ((withContexts config codec).run events).Lossless :=
  ⟨(Agrees.run events (withContexts_agrees config config.clamped)).lossless,
    (Agrees.run events (withContexts_agrees config codec)).lossless⟩

end Link

end WindowedLz4
