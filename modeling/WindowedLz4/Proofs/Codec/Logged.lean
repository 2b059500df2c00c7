/-
A codec that writes down how it is called.

Around any codec stands one that passes every call on and answers as that codec does.  It
notes the calls that succeed, each with the place of the message and the window before
it, and the windows that are given up, each with the number of calls that had succeeded
by then.  A session cannot tell the two apart (`Compressor.process_forget`,
`Decompressor.process_forget`), so what the log says of a session with it is what the
same session does to the codec inside.

`Logged.Records` says which log a window leaves that was turned with some messages, and
a call that succeeds is one step of it (`Records.encoder_turn`, `Records.decoder_turn`).
Of a log that goes on, the part that belongs to the first messages is found by counting
(`codings_take`, `retirals_take`).
-/
import WindowedLz4.Proofs.Codec.Map
import WindowedLz4.Proofs.Session.Link
namespace WindowedLz4

/-- One call of a codec that succeeded: where the message stood in the window, and what stood
before it. -/
structure Coding where
  start : Nat
  before : Bytes
  deriving DecidableEq, Repr, Inhabited

/-- A codec, and what it was called with. -/
structure Logged (κ : Type) where
  codec : κ
  /-- The calls that succeeded, in their order. -/
  coded : List Coding := []
  /-- The windows that were given up, in their order, and how many calls had succeeded then. -/
  retired : List (Nat × Bytes) := []

namespace Logged

variable {κ : Type}

/-- A codec that was not called yet. -/
def blank (codec : κ) : Logged κ := { codec }

/-- The log once a call has ended, with the codec as the call left it. -/
def ended (c : Logged κ) (verdict : Except Failure Nat) (codec : κ) (coding : Coding) : Logged κ :=
  match verdict with
  | .ok _ => { c with codec, coded := c.coded ++ [coding] }
  | .error _ => { c with codec }

/-- The log once a window was given up, with the codec as that left it. -/
def gaveUp (c : Logged κ) (codec : κ) (window : Bytes) : Logged κ :=
  { c with codec, retired := c.retired ++ [(c.coded.length, window)] }

instance [Encoder κ] : Encoder (Logged κ) where
  encode c window start dst :=
    let o := Encoder.encode c.codec window start dst
    ⟨o.verdict, c.ended o.verdict o.after.1 ⟨start, window.extract 0 start⟩, o.after.2⟩
  retire c window := c.gaveUp (Encoder.retire c.codec window) window

instance [Decoder κ] : Decoder (Logged κ) where
  decode c frame window start capacity :=
    let o := Decoder.decode c.codec frame window start capacity
    ⟨o.verdict, c.ended o.verdict o.after.1 ⟨start, window.toArray.extract 0 start⟩, o.after.2⟩
  retire c window := c.gaveUp (Decoder.retire c.codec window) window

/-- A call ends as that of the codec inside. -/
theorem encode_eq [Encoder κ] {c : Logged κ} {window dst dst' : Bytes} {start : Nat}
    {verdict : Except Failure Nat} {codec : κ}
    (h : Encoder.encode c.codec window start dst = ⟨verdict, codec, dst'⟩) :
    Encoder.encode c window start dst
      = ⟨verdict, c.ended verdict codec ⟨start, window.extract 0 start⟩, dst'⟩ := by
  simp only [Encoder.encode, h]

theorem decode_eq [Decoder κ] {c : Logged κ} {n : Nat} {frame : Bytes}
    {window window' : Vector UInt8 n} {start capacity : Nat} {verdict : Except Failure Nat}
    {codec : κ} (h : Decoder.decode c.codec frame window start capacity
      = ⟨verdict, codec, window'⟩) :
    Decoder.decode c frame window start capacity
      = ⟨verdict, c.ended verdict codec ⟨start, window.toArray.extract 0 start⟩, window'⟩ := by
  simp only [Decoder.decode, h]

theorem codec_ended (c : Logged κ) (verdict : Except Failure Nat) (codec : κ) (coding : Coding) :
    (c.ended verdict codec coding).codec = codec := by
  cases verdict <;> rfl

/-- The decoder without its log. -/
def toCodec [Decoder κ] : DecoderHom (Logged κ) κ where
  toFun := codec
  decode_eq c frame window start capacity := by
    rcases h : Decoder.decode c.codec frame window start capacity with ⟨verdict, codec, window'⟩
    rw [decode_eq h, Outcome.mapAfter, codec_ended]
  retire_eq _ _ := rfl

end Logged

/-! ### The log does not show -/

namespace Compressor

variable {ε : Type}

/-- The session without its log. -/
def forget (s : Compressor (Logged ε)) : Compressor ε :=
  { s with encoder := s.encoder.codec }

theorem write_forget (s : Compressor (Logged ε)) (src : Bytes) :
    s.forget.write src = (s.write src).mapAfter forget := by
  have hpending : s.forget.pendingSize = s.pendingSize := rfl
  have hmax : s.forget.config.maxMessageSize = s.config.maxMessageSize := rfl
  have hwindow : s.forget.window = s.window := rfl
  simp only [write, hpending, hmax, hwindow]
  split
  · rfl
  · split
    · rfl
    · cases s.window.append src <;> rfl

variable [Encoder ε]

theorem commit_forget (s : Compressor (Logged ε)) (frameSize : Nat) :
    s.forget.commit frameSize = (s.commit frameSize).mapAfter forget := by
  have hpending : s.forget.pendingSize = s.pendingSize := rfl
  have hwindow : s.forget.window = s.window := rfl
  simp only [commit, hpending, hwindow]
  rcases s.window.advance s.pendingSize with failure | ⟨advance, window⟩
  · rfl
  · cases advance <;> rfl

/-- Processing answers as it does without the log. -/
theorem process_forget (s : Compressor (Logged ε)) (dst : Bytes) :
    s.forget.process dst = (s.process dst).mapAfter fun after => (after.1.forget, after.2) := by
  have hpending : s.forget.pendingSize = s.pendingSize := rfl
  rcases hencode : Encoder.encode s.encoder.codec s.window.buffer s.window.start dst with
    ⟨verdict, codec, dst'⟩
  have hplain : Encoder.encode s.forget.encoder s.forget.window.buffer s.forget.window.start dst
      = ⟨verdict, codec, dst'⟩ := hencode
  simp only [process, hpending, hplain, Logged.encode_eq hencode]
  split
  · rfl
  · cases verdict with
    | error failure => rfl
    | ok size =>
        let encoded : Compressor (Logged ε) := { s with
          encoder := s.encoder.ended (.ok size) codec
            ⟨s.window.start, s.window.buffer.extract 0 s.window.start⟩ }
        exact congrArg (Outcome.mapAfter (·, dst')) (commit_forget encoded size)

theorem compressMessage_forget (s : Compressor (Logged ε)) (message dst : Bytes) :
    s.forget.compressMessage message dst
      = (s.compressMessage message dst).mapAfter fun after => (after.1.forget, after.2) := by
  unfold compressMessage
  rw [write_forget]
  rcases s.write message with ⟨failure | -, s'⟩
  · rfl
  · exact process_forget s' dst

/-- The caller gets to know the same. -/
theorem serve_forget (s : Compressor (Logged ε)) (call : Call) :
    s.forget.serve call = ((s.serve call).1.forget, (s.serve call).2) := by
  cases call with
  | write src => rw [serve, write_forget]; rfl
  | process dst => rw [serve, process_forget]; rfl
  | compressMessage message dst => rw [serve, compressMessage_forget, write_forget]; rfl

end Compressor

namespace Decompressor

variable {δ : Type} [Decoder δ]

/-- The session without its log. -/
def forget (s : Decompressor (Logged δ)) : Decompressor δ :=
  { s with decoder := s.decoder.codec }

/-- Processing answers as it does without the log. -/
theorem process_forget (s : Decompressor (Logged δ)) (dst frame : Bytes) :
    s.forget.process dst frame
      = (s.process dst frame).mapAfter fun after => (after.1.forget, after.2) :=
  process_map Logged.toCodec s dst frame

end Decompressor

/-! ### What the turns of a window leave in a log -/

/-- The calls for messages that follow one another. -/
def codings (dictionarySize : Nat) (history : Bytes) : List Bytes → List Coding
  | [] => []
  | message :: rest =>
    ⟨history.size, history⟩ :: codings dictionarySize (turn dictionarySize history message).2 rest

/-- What an advance leaves in a log behind `count` calls. -/
def Advance.retiral (count : Nat) : Advance → List (Nat × Bytes)
  | continued => []
  | rolledOver retired => [(count, retired)]

/-- The windows that are given up over messages that follow one another, behind `count` others. -/
def retirals (dictionarySize : Nat) (history : Bytes) (count : Nat) :
    List Bytes → List (Nat × Bytes)
  | [] => []
  | message :: rest =>
    (turn dictionarySize history message).1.retiral (count + 1)
      ++ retirals dictionarySize (turn dictionarySize history message).2 (count + 1) rest

theorem length_codings (dictionarySize : Nat) (messages : List Bytes) :
    ∀ history, (codings dictionarySize history messages).length = messages.length := by
  induction messages with
  | nil => intro history; rfl
  | cons message rest ih => intro history; rw [codings, List.length_cons, ih, List.length_cons]

theorem codings_concat (dictionarySize : Nat) (messages : List Bytes) (message : Bytes) :
    ∀ history, codings dictionarySize history (messages ++ [message])
      = codings dictionarySize history messages
        ++ [⟨(historyFrom dictionarySize history messages).size,
            historyFrom dictionarySize history messages⟩] := by
  induction messages with
  | nil => intro history; rfl
  | cons first rest ih =>
      intro history
      rw [List.cons_append, codings, ih, codings, List.cons_append]
      rfl

/-- The first calls are those for the first messages. -/
theorem codings_take (dictionarySize : Nat) (messages : List Bytes) :
    ∀ (history : Bytes) (count : Nat), codings dictionarySize history (messages.take count)
      = (codings dictionarySize history messages).take count := by
  induction messages with
  | nil => intro history count; simp [codings]
  | cons message rest ih =>
      intro history count
      cases count with
      | zero => rfl
      | succ count => rw [List.take_succ_cons, codings, codings, ih, List.take_succ_cons]

theorem retirals_concat (dictionarySize : Nat) (messages : List Bytes) (message : Bytes) :
    ∀ (history : Bytes) (count : Nat),
      retirals dictionarySize history count (messages ++ [message])
        = retirals dictionarySize history count messages
          ++ (turn dictionarySize (historyFrom dictionarySize history messages)
              message).1.retiral (count + messages.length + 1) := by
  induction messages with
  | nil => intro history count; exact List.append_nil _
  | cons first rest ih =>
      intro history count
      rw [List.cons_append, retirals, ih, retirals, List.append_assoc, List.length_cons,
        show count + 1 + rest.length + 1 = count + (rest.length + 1) + 1 by omega]
      rfl

/-- What is given up behind some messages is noted with a higher count than they have. -/
theorem lt_of_mem_retirals (dictionarySize : Nat) (messages : List Bytes) :
    ∀ (history : Bytes) (count : Nat),
      ∀ entry ∈ retirals dictionarySize history count messages, count < entry.1 := by
  induction messages with
  | nil => intro history count entry hmem; simp [retirals] at hmem
  | cons message rest ih =>
      intro history count entry hmem
      rw [retirals] at hmem
      rcases List.mem_append.mp hmem with hmem | hmem
      · cases hadvance : (turn dictionarySize history message).1 with
        | continued => simp [hadvance, Advance.retiral] at hmem
        | rolledOver retired =>
            rw [hadvance, Advance.retiral, List.mem_singleton] at hmem
            rw [hmem]
            exact Nat.lt_succ_self count
      · exact Nat.lt_of_succ_lt (ih _ (count + 1) entry hmem)

/-- The windows that were given up over the first messages are those that were noted with no
higher count. -/
theorem retirals_take (dictionarySize : Nat) (messages : List Bytes) :
    ∀ (history : Bytes) (before count : Nat),
      retirals dictionarySize history before (messages.take count)
        = (retirals dictionarySize history before messages).filter
            fun entry => entry.1 ≤ before + count := by
  induction messages with
  | nil => intro history before count; simp [retirals]
  | cons message rest ih =>
      intro history before count
      cases count with
      | zero =>
          refine (List.filter_eq_nil_iff.mpr fun entry hmem hle => ?_).symm
          have hlt := lt_of_mem_retirals dictionarySize (message :: rest) history before entry hmem
          exact absurd (of_decide_eq_true hle) (Nat.not_le.mpr hlt)
      | succ count =>
          have hfirst : ((turn dictionarySize history message).1.retiral (before + 1)).filter
                (fun entry => entry.1 ≤ before + (count + 1))
              = (turn dictionarySize history message).1.retiral (before + 1) := by
            cases (turn dictionarySize history message).1 with
            | continued => rfl
            | rolledOver retired => simp [Advance.retiral]
          rw [List.take_succ_cons, retirals, ih, retirals, List.filter_append, hfirst,
            show before + 1 + count = before + (count + 1) by omega]

namespace Logged

variable {κ : Type} {c : Logged κ} {dictionarySize : Nat} {messages : List Bytes}

/-- The log is the one that a window leaves when it is turned with these messages. -/
structure Records (c : Logged κ) (dictionarySize : Nat) (messages : List Bytes) : Prop where
  coded_eq : c.coded = codings dictionarySize #[] messages
  retired_eq : c.retired = retirals dictionarySize #[] 0 messages

theorem Records.length_coded (h : c.Records dictionarySize messages) :
    c.coded.length = messages.length := by
  rw [h.coded_eq, length_codings]

theorem blank_records (codec : κ) (dictionarySize : Nat) :
    (blank codec).Records dictionarySize [] := ⟨rfl, rfl⟩

/-- A call that fails is not recorded. -/
theorem Records.failed (h : c.Records dictionarySize messages) (codec : κ) :
    ({ c with codec } : Logged κ).Records dictionarySize messages :=
  ⟨h.coded_eq, h.retired_eq⟩

variable {history message : Bytes}

/-- **A call that succeeds and the turn after it go to the log as one more message**, however
the codec is told of the turn. -/
private theorem Records.turn (h : c.Records dictionarySize messages)
    (hhistory : history = historyAfter dictionarySize messages) (coded : Logged κ)
    (hcoded : coded.coded = c.coded ++ [⟨history.size, history⟩])
    (hretired : coded.retired = c.retired) (settle : Advance → Logged κ)
    (hcontinued : settle .continued = coded)
    (hrolledOver : ∀ window, ∃ codec, settle (.rolledOver window) = coded.gaveUp codec window) :
    (settle (WindowedLz4.turn dictionarySize history message).1).Records dictionarySize
      (messages ++ [message]) := by
  have hlength : coded.coded.length = messages.length + 1 := by
    rw [hcoded, List.length_append, h.length_coded]
    rfl
  have hcodings : coded.coded = codings dictionarySize #[] (messages ++ [message]) := by
    rw [hcoded, codings_concat, ← h.coded_eq, ← historyAfter, ← hhistory]
  have hretirals := retirals_concat dictionarySize messages message #[] 0
  rw [← h.retired_eq, Nat.zero_add, ← hlength, ← hretired, ← historyAfter, ← hhistory]
    at hretirals
  cases hadvance : (WindowedLz4.turn dictionarySize history message).1 with
  | continued =>
      rw [hadvance, Advance.retiral, List.append_nil] at hretirals
      rw [hcontinued]
      exact ⟨hcodings, hretirals.symm⟩
  | rolledOver window =>
      rw [hadvance, Advance.retiral] at hretirals
      obtain ⟨codec, hgaveUp⟩ := hrolledOver window
      rw [hgaveUp]
      exact ⟨hcodings, hretirals.symm⟩

theorem Records.encoder_turn [Encoder κ] (h : c.Records dictionarySize messages)
    (hhistory : history = historyAfter dictionarySize messages) (size : Nat) (codec : κ) :
    (Encoder.settle (c.ended (.ok size) codec ⟨history.size, history⟩)
      (WindowedLz4.turn dictionarySize history message).1).Records dictionarySize
        (messages ++ [message]) :=
  h.turn hhistory (c.ended (.ok size) codec ⟨history.size, history⟩) rfl rfl (Encoder.settle _) rfl
    fun _ => ⟨_, rfl⟩

theorem Records.decoder_turn [Decoder κ] (h : c.Records dictionarySize messages)
    (hhistory : history = historyAfter dictionarySize messages) (size : Nat) (codec : κ) :
    (Decoder.settle (c.ended (.ok size) codec ⟨history.size, history⟩)
      (WindowedLz4.turn dictionarySize history message).1).Records dictionarySize
        (messages ++ [message]) :=
  h.turn hhistory (c.ended (.ok size) codec ⟨history.size, history⟩) rfl rfl (Decoder.settle _) rfl
    fun _ => ⟨_, rfl⟩

end Logged

end WindowedLz4
