/-
What each call does to a sending session.

`Growing.Serves` is what the window of every session keeps, whatever its codec: it
has the sizes of the configuration, the cursor is inside the dictionary, and the
pending message is not too long.  It is enough to see that the window never
overflows, since what stands before the cursor and a whole message fit it together,
and that a commit is never refused.

`Follows` is what an LZ4 session keeps besides: it has processed `past`, `pending`
waits, and the context and the window together hold the end of `past`.  Each call
has one lemma.  A write is accepted exactly if the message does not get too long
(`write_accepts`, `write_refuses`), and processing a message appends its frame
behind the last bytes of `past` (`process_frames`).
-/
import WindowedLz4.Proofs.Codec.Lz4
import WindowedLz4.Proofs.Window
import WindowedLz4.Session.Compressor
namespace WindowedLz4

/-- An encoder's context once its window has advanced. -/
def Encoder.settle {ε : Type} [Encoder ε] (context : ε) : Advance → ε
  | .continued => context
  | .rolledOver retired => Encoder.retire context retired

theorem Lz4Context.encoder_settle (c : Lz4Context) (advance : Advance) :
    Encoder.settle c advance = c.settle advance := by
  cases advance <;> rfl

/-- The window has the configuration's sizes, its cursor is inside the dictionary, and the
pending message is one that may be written. -/
structure Growing.Serves (w : Growing) (config : WindowConfig) : Prop where
  exact : config.Exact
  dictionarySize_eq : w.dictionarySize = config.dictionarySize
  capacity_eq : w.capacity = config.ringCapacity
  size_history_lt : w.history.size < config.dictionarySize
  size_pending_le : w.pending.size ≤ config.maxMessageSize

theorem Growing.ofConfig_serves (config : WindowConfig) :
    (ofConfig config.clamped).Serves config.clamped :=
  ⟨config.exact_clamped, rfl, rfl, config.dictionarySize_clamped_pos, Nat.zero_le _⟩

namespace Compressor

/-! ### Any codec -/

section Codec

variable {ε : Type} {s : Compressor ε}

theorem pendingSize_eq (s : Compressor ε) : s.pendingSize = s.window.pending.size :=
  s.window.size_pending.symm

/-- A write that does not make the message too long is accepted, and goes to the pending
message alone. -/
theorem write_accepts (h : s.window.Serves s.config) {src : Bytes}
    (hfit : s.window.pending.size + src.size ≤ s.config.maxMessageSize) :
    ∃ window, s.write src = .done () { s with window } ∧ window.Serves s.config ∧
      window.history = s.window.history ∧ window.pending = s.window.pending ++ src := by
  rcases Nat.eq_zero_or_pos src.size with hzero | hpos
  · refine ⟨s.window, if_pos hzero, h, rfl, ?_⟩
    rw [Array.size_eq_zero_iff.mp hzero, Array.append_empty]
  · have hbuffer : s.window.buffer.size = s.window.history.size + s.window.pending.size := by
      rw [← s.window.history_append_pending, Array.size_append]
    have hroom : s.window.buffer.size + src.size ≤ s.window.capacity := by
      have := h.size_history_lt
      rw [h.capacity_eq, h.exact.ringCapacity_eq]
      omega
    obtain ⟨window, happend, hdictionary, hcapacity, -, hhistory, hpending⟩ :=
      s.window.append_eq hroom
    refine ⟨window, ?_, ⟨h.exact, hdictionary.trans h.dictionarySize_eq,
      hcapacity.trans h.capacity_eq, ?_, ?_⟩, hhistory, hpending⟩
    · rw [write, if_neg (Nat.ne_of_gt hpos), pendingSize_eq, if_neg (Nat.not_lt.mpr hfit), happend]
    · rw [hhistory]
      exact h.size_history_lt
    · rw [hpending, Array.size_append]
      exact hfit

/-- A write that would make the message too long is refused with its numbers. -/
theorem write_refuses (h : s.window.Serves s.config) {src : Bytes}
    (hlong : s.config.maxMessageSize < s.window.pending.size + src.size) :
    s.write src
      = .refused (.messageTooLarge s.pendingSize src.size s.config.maxMessageSize) s := by
  have hpos : src.size ≠ 0 := by
    have := h.size_pending_le
    omega
  rw [write, if_neg hpos, if_pos (by rw [pendingSize_eq]; exact hlong)]

variable [Encoder ε]

/-- A commit is never refused: it turns the history and counts the frame. -/
theorem commit_done (s : Compressor ε) (frameSize : Nat) :
    ∃ window, s.commit frameSize = .done frameSize
        { s with
          encoder := Encoder.settle s.encoder
            (turn s.window.dictionarySize s.window.history s.window.pending).1
          window
          ledger := s.ledger.record s.pendingSize frameSize } ∧
      window.dictionarySize = s.window.dictionarySize ∧ window.capacity = s.window.capacity ∧
      window.history = (turn s.window.dictionarySize s.window.history s.window.pending).2 ∧
      window.pending = #[] := by
  obtain ⟨window, hadvance, hwindow⟩ := s.window.advance_eq
  refine ⟨window, ?_, hwindow⟩
  unfold commit
  simp only [pendingSize, hadvance]
  cases (turn s.window.dictionarySize s.window.history s.window.pending).1 <;> rfl

/-- A window that serves a session serves it after a commit. -/
theorem commit_eq (h : s.window.Serves s.config) (frameSize : Nat) :
    ∃ window, s.commit frameSize = .done frameSize
        { s with
          encoder := Encoder.settle s.encoder
            (turn s.config.dictionarySize s.window.history s.window.pending).1
          window
          ledger := s.ledger.record s.pendingSize frameSize } ∧
      window.Serves s.config ∧
      window.history = (turn s.config.dictionarySize s.window.history s.window.pending).2 ∧
      window.pending = #[] := by
  obtain ⟨window, hcommit, hdictionary, hcapacity, hhistory, hpending⟩ := s.commit_done frameSize
  rw [h.dictionarySize_eq] at hcommit hdictionary hhistory
  have hshort := size_turn_lt h.exact.dictionarySize_pos s.window.history s.window.pending
  refine ⟨window, hcommit, ⟨h.exact, hdictionary, hcapacity.trans h.capacity_eq, ?_, ?_⟩,
    hhistory, hpending⟩
  · rw [hhistory]
    exact hshort
  · rw [hpending]
    exact Nat.zero_le _

theorem process_noData (h : s.pendingSize = 0) (dst : Bytes) :
    s.process dst = .refused .noData (s, dst) := by
  rw [process, if_pos h]

/-- A failure of the encoder is the session's, and the session keeps everything but the
context. -/
theorem process_of_error (hpos : 0 < s.pendingSize) {dst dst' : Bytes} {failure : Failure}
    {encoder : ε}
    (hencode : Encoder.encode s.encoder s.window.buffer s.window.start dst
      = .refused failure (encoder, dst')) :
    s.process dst = .refused failure ({ s with encoder }, dst') := by
  rw [process, if_neg (Nat.ne_of_gt hpos), hencode]
  rfl

/-- A message that is encoded goes on to be committed. -/
theorem process_eq_commit (hpos : 0 < s.pendingSize) {dst dst' : Bytes} {size : Nat} {encoder : ε}
    (hencode : Encoder.encode s.encoder s.window.buffer s.window.start dst
      = .done size (encoder, dst')) :
    s.process dst = (({ s with encoder } : Compressor ε).commit size).mapAfter (·, dst') := by
  rw [process, if_neg (Nat.ne_of_gt hpos), hencode]
  rfl

/-- Then the history turns and the frame is counted. -/
theorem process_of_ok (h : s.window.Serves s.config) (hpos : 0 < s.pendingSize)
    {dst dst' : Bytes} {size : Nat} {encoder : ε}
    (hencode : Encoder.encode s.encoder s.window.buffer s.window.start dst
      = .done size (encoder, dst')) :
    ∃ window, s.process dst = .done size
        ({ s with
            encoder := Encoder.settle encoder
              (turn s.config.dictionarySize s.window.history s.window.pending).1
            window
            ledger := s.ledger.record s.pendingSize size }, dst') ∧
      window.Serves s.config ∧
      window.history = (turn s.config.dictionarySize s.window.history s.window.pending).2 ∧
      window.pending = #[] := by
  let encoded : Compressor ε := { s with encoder }
  have hserves : encoded.window.Serves encoded.config := h
  obtain ⟨window, hcommit, hserves', hhistory, hpending⟩ := commit_eq hserves size
  have hprocess : s.process dst = (encoded.commit size).mapAfter (·, dst') :=
    process_eq_commit hpos hencode
  rw [hcommit] at hprocess
  exact ⟨window, hprocess, hserves', hhistory, hpending⟩

/-- A message that is compressed at once is refused as its write is, or it is written and then
processed. -/
theorem compressMessage_cases (s : Compressor ε) (message dst : Bytes) :
    (∃ failure s', s.write message = .refused failure s' ∧
      s.compressMessage message dst = .refused failure (s', dst)) ∨
    ∃ s', s.write message = .done () s' ∧ s.compressMessage message dst = s'.process dst := by
  unfold compressMessage
  rcases s.write message with ⟨failure | accepted, s'⟩
  · exact .inl ⟨failure, s', rfl, rfl⟩
  · exact .inr ⟨s', rfl, rfl⟩

end Codec

/-! ### LZ4 -/

/-- The session has processed `past`, `pending` waits, and its dictionaries reach back
`reach` bytes. -/
structure Follows (s : Compressor Lz4Context) (config : WindowConfig) (reach : Nat)
    (past pending : Bytes) : Prop where
  serves : s.window.Serves s.config
  config_eq : s.config = config
  reach_eq : s.encoder.history.limit = reach
  pending_eq : s.window.pending = pending
  holds : s.encoder.Holds s.window.history past

theorem withEncoder_follows (config codec : WindowConfig) :
    (withEncoder config (Lz4Context.ofConfig codec)).Follows config.clamped
      (min codec.dictionarySize maxDistance) #[] #[] :=
  ⟨Growing.ofConfig_serves config, rfl, rfl, rfl, Lz4Context.holds_ofConfig codec⟩

section Lz4

variable {s : Compressor Lz4Context} {config : WindowConfig} {reach : Nat} {past pending : Bytes}

theorem Follows.pendingSize_eq (h : s.Follows config reach past pending) :
    s.pendingSize = pending.size := by
  rw [Compressor.pendingSize_eq, h.pending_eq]

theorem Follows.size_pending_le (h : s.Follows config reach past pending) :
    pending.size ≤ config.maxMessageSize := by
  have := h.serves.size_pending_le
  rwa [h.pending_eq, h.config_eq] at this

/-- An accepted write joins the pending message. -/
theorem Follows.write_accepts (h : s.Follows config reach past pending) {src : Bytes}
    (hfit : pending.size + src.size ≤ config.maxMessageSize) :
    ∃ s', s.write src = .done () s' ∧ s'.Follows config reach past (pending ++ src) ∧
      s'.window.history = s.window.history ∧ s'.ledger = s.ledger := by
  have hfit' : s.window.pending.size + src.size ≤ s.config.maxMessageSize := by
    rw [h.pending_eq, h.config_eq]
    exact hfit
  obtain ⟨window, hwrite, hserves, hhistory, hpending⟩ := Compressor.write_accepts h.serves hfit'
  refine ⟨_, hwrite, ⟨hserves, h.config_eq, h.reach_eq, ?_, ?_⟩, hhistory, rfl⟩
  · show window.pending = _
    rw [hpending, h.pending_eq]
  · show s.encoder.Holds window.history past
    rw [hhistory]
    exact h.holds

/-- A write is refused exactly if it would make the message too long. -/
theorem Follows.write_refuses (h : s.Follows config reach past pending) {src : Bytes}
    (hlong : config.maxMessageSize < pending.size + src.size) :
    s.write src = .refused (.messageTooLarge pending.size src.size config.maxMessageSize) s := by
  rw [Compressor.write_refuses h.serves (by rw [h.pending_eq, h.config_eq]; exact hlong),
    h.pendingSize_eq, h.config_eq]

theorem Follows.process_noData (h : s.Follows config reach past pending) (hzero : pending.size = 0)
    (dst : Bytes) : s.process dst = .refused .noData (s, dst) :=
  Compressor.process_noData (h.pendingSize_eq.trans hzero) dst

/-- **Processing a message appends its frame behind the last bytes of the past.** -/
theorem Follows.process_frames (h : s.Follows config reach past pending) (hpos : 0 < pending.size)
    (dst : Bytes) :
    ∃ s', s.process dst = .done (frameOf (lastBytes reach past) pending).size
        (s', dst ++ frameOf (lastBytes reach past) pending) ∧
      s'.Follows config reach (past ++ pending) #[] ∧
      s'.window.history = (turn config.dictionarySize s.window.history pending).2 ∧
      s'.ledger = s.ledger.record pending.size (frameOf (lastBytes reach past) pending).size := by
  have hdictionary : (s.encoder.history.dictionary s.window.history).1 = lastBytes reach past := by
    rw [h.holds.dictionary_eq, h.reach_eq]
  have hencode : Encoder.encode s.encoder s.window.buffer s.window.start dst
      = .done (frameOf (lastBytes reach past) pending).size
          (⟨(s.encoder.history.dictionary s.window.history).2⟩,
            dst ++ frameOf (lastBytes reach past) pending) := by
    rw [← hdictionary, ← h.pending_eq]
    exact s.encoder.encode_eq s.window.start_le dst
  obtain ⟨window, hprocess, hserves, hhistory, hpending⟩ :=
    process_of_ok h.serves (by rw [h.pendingSize_eq]; exact hpos) hencode
  -- Encoding replaces the context by one that holds the same, and the rest is the turn.
  refine ⟨_, hprocess, ⟨hserves, h.config_eq, ?_, hpending, ?_⟩, ?_, ?_⟩
  · show (Encoder.settle (⟨(s.encoder.history.dictionary s.window.history).2⟩ : Lz4Context)
      _).history.limit = reach
    rw [Lz4Context.encoder_settle, Lz4Context.limit_settle, ← h.reach_eq]
    exact History.limit_dictionary _ _
  · show (Encoder.settle (⟨(s.encoder.history.dictionary s.window.history).2⟩ : Lz4Context)
      _).Holds window.history (past ++ pending)
    rw [Lz4Context.encoder_settle, hhistory, ← h.pending_eq]
    exact (h.holds.dictionary s.window.history).turn _ _
  · show window.history = _
    rw [hhistory, ← h.config_eq, ← h.pending_eq]
  · show s.ledger.record s.pendingSize _ = _
    rw [h.pendingSize_eq]

end Lz4

end Compressor

end WindowedLz4
