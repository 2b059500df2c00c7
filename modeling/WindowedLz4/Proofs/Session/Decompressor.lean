/-
What a frame does to a receiving session.

`Ring.Serves` is what the ring of every session keeps, whatever its codec: its
cursor is inside the dictionary.  A whole message then fits ahead of the cursor, the
region that a decoder is given lies inside the ring, and a commit of no more than a
message is never refused.

`Follows` is what an LZ4 session keeps besides: it has delivered `past`, and the
context and the ring up to the cursor together hold the end of it.  The bytes from
the cursor on do not occur in it, which is why a frame that fails may leave anything
there.  A frame is delivered exactly if it decodes to at least one byte behind the
last bytes of `past` (`process_delivers`), and otherwise the session still follows
the same past from the same cursor (`process_malformed`).
-/
import WindowedLz4.Proofs.Codec.Lz4
import WindowedLz4.Proofs.Window
import WindowedLz4.Session.Decompressor
namespace WindowedLz4

/-- A decoder's context once its window has advanced. -/
def Decoder.settle {δ : Type} [Decoder δ] (context : δ) : Advance → δ
  | .continued => context
  | .rolledOver retired => Decoder.retire context retired

theorem Lz4Context.decoder_settle (c : Lz4Context) (advance : Advance) :
    Decoder.settle c advance = c.settle advance := by
  cases advance <;> rfl

/-- The cursor is inside the dictionary of a ring that holds a dictionary and a message. -/
structure Ring.Serves {config : WindowConfig} (w : Ring config) : Prop where
  exact : config.Exact
  cursor_lt : w.cursor < config.dictionarySize

namespace Ring

variable {config : WindowConfig} {w : Ring config}

theorem empty_serves (config : WindowConfig) : (empty config.clamped).Serves :=
  ⟨config.exact_clamped, config.dictionarySize_clamped_pos⟩

/-- A message of the greatest length fits ahead of the cursor. -/
theorem Serves.region_le (h : w.Serves) :
    w.cursor + config.maxMessageSize ≤ config.ringCapacity := by
  have := h.cursor_lt
  rw [h.exact.ringCapacity_eq]
  omega

theorem Serves.isConsistent (h : w.Serves) : w.isConsistent = true :=
  decide_eq_true h.cursor_lt

theorem Serves.cursor_le (h : w.Serves) : w.cursor ≤ config.ringCapacity :=
  Nat.le_trans (Nat.le_add_right _ _) h.region_le

theorem Serves.size_history (h : w.Serves) : w.history.size = w.cursor :=
  w.size_history h.cursor_le

/-- An advance keeps the cursor inside the dictionary, whatever the length. -/
theorem Serves.advance (h : w.Serves) {len : Nat} {advance : Advance} {w' : Ring config}
    (hadvance : w.advance len = .ok (advance, w')) : w'.Serves := by
  obtain ⟨-, -, -, -, rfl⟩ | ⟨stop, hstop, -, rfl⟩ := advance_cases hadvance
  · exact ⟨h.exact, h.exact.dictionarySize_pos⟩
  · exact ⟨h.exact, hstop⟩

end Ring

namespace Decompressor

/-! ### Any codec -/

section Codec

variable {δ : Type} [Decoder δ] {s : Decompressor δ}

/-- A commit inside the ring is never refused: it copies out what stands ahead of the cursor,
turns the history and counts the frame. -/
theorem commit_eq (h : s.window.Serves) {size : Nat}
    (hfit : s.window.cursor + size ≤ s.config.ringCapacity) (frameSize : Nat) (dst : Bytes) :
    ∃ window, s.commit frameSize size dst = .done size
        ({ s with
            decoder := Decoder.settle s.decoder
              (turn s.config.dictionarySize s.window.history (s.window.ahead size)).1
            window
            ledger := s.ledger.record frameSize size }, dst ++ s.window.ahead size) ∧
      window.Serves ∧
      window.history = (turn s.config.dictionarySize s.window.history (s.window.ahead size)).2 := by
  obtain ⟨window, hadvance, hcursor, hhistory⟩ := Ring.advance_eq h.exact.lt_word hfit
  have hshort := size_turn_lt h.exact.dictionarySize_pos s.window.history (s.window.ahead size)
  refine ⟨window, ?_, ⟨h.exact, ?_⟩, hhistory⟩
  · unfold commit
    simp only [Ring.message_eq h.exact.lt_word hfit, hadvance]
    cases (turn s.config.dictionarySize s.window.history (s.window.ahead size)).1 <;> rfl
  · rw [← window.size_history hcursor, hhistory]
    exact hshort

/-- A commit changes nothing, or it advances the ring and counts the frame, whatever the length. -/
theorem commit_cases (s : Decompressor δ) (frameSize size : Nat) (dst : Bytes) :
    (∃ failure dst', s.commit frameSize size dst = .refused failure (s, dst')) ∨
    ∃ (message : Bytes) (advance : Advance) (window : Ring s.config),
      s.window.advance size = .ok (advance, window) ∧
      s.commit frameSize size dst = .done size
        ({ s with
            decoder := Decoder.settle s.decoder advance
            window
            ledger := s.ledger.record frameSize size }, dst ++ message) := by
  unfold commit
  cases s.window.message size with
  | error failure => exact .inl ⟨failure, dst, rfl⟩
  | ok message =>
      cases hadvance : s.window.advance size with
      | error failure => exact .inl ⟨failure, _, rfl⟩
      | ok advanced =>
          obtain ⟨advance, window⟩ := advanced
          refine .inr ⟨message, advance, window, rfl, ?_⟩
          cases advance <;> rfl

theorem process_noData (s : Decompressor δ) {frame : Bytes} (h : frame.size = 0) (dst : Bytes) :
    s.process dst frame = .refused .noData (s, dst) := by
  rw [process, if_pos h]

/-- If the cursor is in order, a frame reaches the decoder. -/
theorem process_eq (h : s.window.isConsistent = true) {frame : Bytes} (hframe : 0 < frame.size)
    (dst : Bytes) {o : Outcome Nat (δ × Vector UInt8 s.config.ringCapacity)}
    (hdecode : Decoder.decode s.decoder frame s.window.bytes s.window.cursor
      s.window.messageCapacity = o) :
    s.process dst frame
      = match o.verdict with
        | .error failure =>
          .refused failure
            ({ s with decoder := o.after.1, window := { s.window with bytes := o.after.2 } }, dst)
        | .ok 0 =>
          .refused .malformed
            ({ s with decoder := o.after.1, window := { s.window with bytes := o.after.2 } }, dst)
        | .ok size =>
          ({ s with decoder := o.after.1,
                    window := { s.window with bytes := o.after.2 } } : Decompressor δ).commit
            frame.size size dst := by
  rw [process, if_neg (Nat.ne_of_gt hframe), h, hdecode]
  rfl

/-- A failure of the decoder is the session's. -/
theorem process_of_error (h : s.window.Serves) {frame : Bytes} (hframe : 0 < frame.size)
    (dst : Bytes) {failure : Failure} {decoder : δ} {bytes : Vector UInt8 s.config.ringCapacity}
    (hdecode : Decoder.decode s.decoder frame s.window.bytes s.window.cursor
      s.window.messageCapacity = .refused failure (decoder, bytes)) :
    s.process dst frame
      = .refused failure ({ s with decoder, window := { s.window with bytes } }, dst) := by
  rw [process_eq h.isConsistent hframe dst hdecode]
  rfl

/-- A frame without plaintext is no message. -/
theorem process_of_zero (h : s.window.Serves) {frame : Bytes} (hframe : 0 < frame.size)
    (dst : Bytes) {decoder : δ} {bytes : Vector UInt8 s.config.ringCapacity}
    (hdecode : Decoder.decode s.decoder frame s.window.bytes s.window.cursor
      s.window.messageCapacity = .done 0 (decoder, bytes)) :
    s.process dst frame
      = .refused .malformed ({ s with decoder, window := { s.window with bytes } }, dst) := by
  rw [process_eq h.isConsistent hframe dst hdecode]
  rfl

/-- Any other message is committed. -/
theorem process_of_pos (h : s.window.Serves) {frame : Bytes} (hframe : 0 < frame.size)
    (dst : Bytes) {size : Nat} {decoder : δ} {bytes : Vector UInt8 s.config.ringCapacity}
    (hdecode : Decoder.decode s.decoder frame s.window.bytes s.window.cursor
      s.window.messageCapacity = .done size (decoder, bytes)) (hpos : 0 < size) :
    s.process dst frame
      = ({ s with decoder, window := { s.window with bytes } } : Decompressor δ).commit
          frame.size size dst := by
  rw [process_eq h.isConsistent hframe dst hdecode]
  match size with
  | 0 => omega
  | size + 1 => rfl

/-- **A call leaves all but what the decoder left, or it is a commit**, whatever the decoder did. -/
theorem process_cases (h : s.window.Serves) {frame : Bytes} (hframe : 0 < frame.size) (dst : Bytes)
    {verdict : Except Failure Nat} {decoder : δ} {bytes : Vector UInt8 s.config.ringCapacity}
    (hdecode : Decoder.decode s.decoder frame s.window.bytes s.window.cursor
      s.window.messageCapacity = ⟨verdict, decoder, bytes⟩) :
    (∃ failure dst', s.process dst frame
      = .refused failure ({ s with decoder, window := { s.window with bytes } }, dst')) ∨
    ∃ (size : Nat) (message : Bytes) (advance : Advance) (window : Ring s.config),
      ({ s.window with bytes } : Ring s.config).advance size = .ok (advance, window) ∧
      s.process dst frame = .done size
        ({ s with
            decoder := Decoder.settle decoder advance
            window
            ledger := s.ledger.record frame.size size }, dst ++ message) := by
  cases verdict with
  | error failure => exact .inl ⟨failure, dst, process_of_error h hframe dst hdecode⟩
  | ok size =>
      rcases Nat.eq_zero_or_pos size with rfl | hpos
      · exact .inl ⟨.malformed, dst, process_of_zero h hframe dst hdecode⟩
      · rw [process_of_pos h hframe dst hdecode hpos]
        rcases commit_cases { s with decoder, window := { s.window with bytes } } frame.size size
            dst with hrefused | ⟨message, advance, window, hadvance, hcommit⟩
        · exact .inl hrefused
        · exact .inr ⟨size, message, advance, window, hadvance, hcommit⟩

/-- **A message that is decoded at the cursor is delivered**, if the decoder left the bytes
before it alone: it is appended, the history turns and the frame is counted. -/
theorem process_of_message (h : s.window.Serves) {frame message : Bytes} (hframe : 0 < frame.size)
    (dst : Bytes) {decoder : δ} {bytes : Vector UInt8 s.config.ringCapacity}
    (hdecode : Decoder.decode s.decoder frame s.window.bytes s.window.cursor
      s.window.messageCapacity = .done message.size (decoder, bytes))
    (hpos : 0 < message.size) (hfit : message.size ≤ s.config.maxMessageSize)
    (hbefore : ({ s.window with bytes } : Ring s.config).history = s.window.history)
    (hahead : ({ s.window with bytes } : Ring s.config).ahead message.size = message) :
    ∃ window, s.process dst frame = .done message.size
        ({ s with
            decoder := Decoder.settle decoder
              (turn s.config.dictionarySize s.window.history message).1
            window
            ledger := s.ledger.record frame.size message.size }, dst ++ message) ∧
      window.Serves ∧
      window.history = (turn s.config.dictionarySize s.window.history message).2 := by
  let decoded : Decompressor δ := { s with decoder, window := { s.window with bytes } }
  have hregion := h.region_le
  have hserves : decoded.window.Serves := ⟨h.exact, h.cursor_lt⟩
  have hroom : decoded.window.cursor + message.size ≤ decoded.config.ringCapacity := by
    show s.window.cursor + message.size ≤ s.config.ringCapacity
    omega
  obtain ⟨window, hcommit, hserves', hhistory⟩ := commit_eq hserves hroom frame.size dst
  have hprocess : s.process dst frame = decoded.commit frame.size message.size dst :=
    process_of_pos h hframe dst hdecode hpos
  have hbefore' : decoded.window.history = s.window.history := hbefore
  have hahead' : decoded.window.ahead message.size = message := hahead
  rw [hcommit, hahead', hbefore'] at hprocess
  rw [hahead', hbefore'] at hhistory
  exact ⟨window, hprocess, hserves', hhistory⟩

end Codec

/-! ### LZ4 -/

/-- The session has delivered `past`, and its dictionaries reach back `reach` bytes. -/
structure Follows (s : Decompressor Lz4Context) (config : WindowConfig) (reach : Nat)
    (past : Bytes) : Prop where
  serves : s.window.Serves
  config_eq : s.config = config
  reach_eq : s.decoder.history.limit = reach
  holds : s.decoder.Holds s.window.history past

theorem withDecoder_follows (config codec : WindowConfig) :
    (withDecoder config (Lz4Context.ofConfig codec)).Follows config.clamped
      (min codec.dictionarySize maxDistance) #[] := by
  refine ⟨Ring.empty_serves config, rfl, rfl, ?_⟩
  show (Lz4Context.ofConfig codec).Holds (Ring.empty config.clamped).history #[]
  have hempty : (Ring.empty config.clamped).history = #[] :=
    Array.extract_empty_of_stop_le_start (Nat.le_refl 0)
  rw [hempty]
  exact Lz4Context.holds_ofConfig codec

section Lz4

variable {s : Decompressor Lz4Context} {config : WindowConfig} {reach : Nat} {past : Bytes}

/-- The context after a dictionary was put together, the same for every frame. -/
def recalled (s : Decompressor Lz4Context) : Lz4Context :=
  ⟨(s.decoder.history.dictionary s.window.history).2⟩

/-- If there is room for a message at the cursor, what a frame decodes to, whole or not, is
written there. -/
theorem decode_eq (s : Decompressor Lz4Context)
    (hregion : s.window.cursor + s.config.maxMessageSize ≤ s.config.ringCapacity) (frame : Bytes) :
    Decoder.decode s.decoder frame s.window.bytes s.window.cursor s.window.messageCapacity
      = match expandFrame (s.decoder.history.dictionary s.window.history).1
            s.config.maxMessageSize frame with
        | .ok plain =>
          .done plain.size (s.recalled, (s.window.put s.window.cursor plain).bytes)
        | .error plain =>
          .refused .malformed (s.recalled, (s.window.put s.window.cursor plain).bytes) :=
  s.decoder.decode_eq frame s.window.bytes hregion

/-- A frame is decoded behind the last bytes of the past. -/
private theorem Follows.decode_eq (h : s.Follows config reach past) (frame : Bytes) :
    Decoder.decode s.decoder frame s.window.bytes s.window.cursor s.window.messageCapacity
      = match expandFrame (lastBytes reach past) config.maxMessageSize frame with
        | .ok plain =>
          .done plain.size (s.recalled, (s.window.put s.window.cursor plain).bytes)
        | .error plain =>
          .refused .malformed (s.recalled, (s.window.put s.window.cursor plain).bytes) := by
  have hdictionary : (s.decoder.history.dictionary s.window.history).1 = lastBytes reach past := by
    rw [h.holds.dictionary_eq, h.reach_eq]
  obtain rfl := h.config_eq
  rw [← hdictionary]
  exact s.decode_eq h.serves.region_le frame

/-- The session after a frame was decoded, whole or not, and before anything is committed. -/
private def decoded (s : Decompressor Lz4Context) (plain : Bytes) : Decompressor Lz4Context :=
  { s with decoder := s.recalled, window := s.window.put s.window.cursor plain }

/-- What a failed frame leaves from the cursor on is not part of what is held. -/
private theorem Follows.decoded (h : s.Follows config reach past) (plain : Bytes) :
    (s.decoded plain).Follows config reach past := by
  refine ⟨⟨h.serves.exact, h.serves.cursor_lt⟩, h.config_eq, ?_, ?_⟩
  · rw [← h.reach_eq]
    exact History.limit_dictionary _ _
  · show s.recalled.Holds (s.window.put s.window.cursor plain).history past
    rw [Ring.history_put]
    exact h.holds.dictionary s.window.history

/-- **A frame that decodes to at least one byte behind the past is delivered.** -/
theorem Follows.process_delivers (h : s.Follows config reach past) {frame plain : Bytes}
    (hframe : 0 < frame.size)
    (hplain : expandFrame (lastBytes reach past) config.maxMessageSize frame = .ok plain)
    (hpos : 0 < plain.size) (dst : Bytes) :
    ∃ s', s.process dst frame = .done plain.size (s', dst ++ plain) ∧
      s'.Follows config reach (past ++ plain) ∧
      s'.window.history = (turn config.dictionarySize s.window.history plain).2 ∧
      s'.ledger = s.ledger.record frame.size plain.size := by
  obtain rfl := h.config_eq
  have hregion := h.serves.region_le
  have hfit : plain.size ≤ s.config.maxMessageSize := size_le_of_expandFrame hplain
  have hdecoded := h.decoded plain
  have hdecode := h.decode_eq frame
  rw [hplain] at hdecode
  obtain ⟨window, hprocess, hserves, hhistory⟩ := process_of_message h.serves hframe dst hdecode
    hpos hfit (Ring.history_put _ _)
    (Ring.ahead_put (show s.window.cursor + plain.size ≤ s.config.ringCapacity by omega))
  refine ⟨_, hprocess, ⟨hserves, rfl, ?_, ?_⟩, hhistory, rfl⟩
  · show (Decoder.settle (s.decoded plain).decoder _).history.limit = reach
    rw [Lz4Context.decoder_settle, Lz4Context.limit_settle]
    exact hdecoded.reach_eq
  · show (Decoder.settle (s.decoded plain).decoder _).Holds window.history (past ++ plain)
    rw [Lz4Context.decoder_settle, hhistory, ← Ring.history_put s.window plain]
    exact hdecoded.holds.turn _ _

/-- **Any other frame leaves the session where it was.** -/
theorem Follows.process_malformed (h : s.Follows config reach past) {frame : Bytes}
    (hframe : 0 < frame.size)
    (hplain : ∀ plain, expandFrame (lastBytes reach past) config.maxMessageSize frame = .ok plain →
      plain.size = 0) (dst : Bytes) :
    ∃ s', s.process dst frame = .refused .malformed (s', dst) ∧ s'.Follows config reach past ∧
      s'.window.history = s.window.history ∧ s'.ledger = s.ledger := by
  have hdecode := h.decode_eq frame
  cases hexpand : expandFrame (lastBytes reach past) config.maxMessageSize frame with
  | error plain =>
      rw [hexpand] at hdecode
      exact ⟨s.decoded plain, process_of_error h.serves hframe dst hdecode, h.decoded plain,
        Ring.history_put _ _, rfl⟩
  | ok plain =>
      rw [hexpand] at hdecode
      simp only [hplain plain hexpand] at hdecode
      exact ⟨s.decoded plain, process_of_zero h.serves hframe dst hdecode, h.decoded plain,
        Ring.history_put _ _, rfl⟩

end Lz4

end Decompressor

end WindowedLz4
