/-
A decoder cannot break the session it works for.

A session trusts its decoder with the whole ring and with the length of the message.
Neither is checked by the decoder's type: it may write over the history, it may fail in
any way, and it may report any length that a word holds.  What stands against it is
small: `Ring.message` and `Ring.advance` look at the end of the message, and they look at
the same one, so a message that was copied out is always committed.

`Traced` keeps a log of every call the decoder gets.  `Sound` is what a session keeps
after any calls: the cursor is inside the dictionary, and every call in the log keeps to
the ring.  One call is then told in full (`Handles`): it ends as `answerTo` says from the
decoder's verdict alone, and what it does to the destination, the cursor, the counters
and the log follows from how it ends.

The log is only for the telling.  Taking it off gives the session with the decoder
itself (`receive_map`, `process_map`).
-/
import WindowedLz4.Codec.Scripted
import WindowedLz4.Proofs.Codec.Map
namespace WindowedLz4

/-- A decoder, and every call it got, in their order. -/
structure Traced (κ : Type) where
  codec : κ
  calls : List CodecCall := []

namespace Traced

variable {κ : Type}

/-- A decoder that was not called yet. -/
def blank (codec : κ) : Traced κ := { codec }

variable [Decoder κ]

instance : Decoder (Traced κ) where
  decode {n} c frame window start capacity :=
    let o := Decoder.decode c.codec frame window start capacity
    ⟨o.verdict,
      ⟨o.after.1, c.calls
        ++ [.decode frame.size n start capacity (window.toArray.extract 0 start)]⟩,
      o.after.2⟩
  retire c window := ⟨Decoder.retire c.codec window, c.calls ++ [.retire window]⟩

/-- The decoder without its log. -/
def toCodec : DecoderHom (Traced κ) κ where
  toFun := codec
  decode_eq _ _ _ _ _ := rfl
  retire_eq _ _ := rfl

/-- An advance is noted exactly if it gives the window up. -/
theorem calls_settle (c : Traced κ) (advance : Advance) :
    (Decoder.settle c advance).calls = c.calls ++ advance.retired?.toList.map .retire := by
  cases advance with
  | continued => exact (List.append_nil _).symm
  | rolledOver retired => rfl

end Traced

/-- A call that keeps to the ring of a session: a message is decoded at a position inside the
dictionary, with room for one message, and what is given up holds a dictionary. -/
def CodecCall.Within (config : WindowConfig) : CodecCall → Prop
  | .encode _ _ => False
  | .decode _ windowSize start capacity before =>
    windowSize = config.dictionarySize + config.maxMessageSize ∧
      start < config.dictionarySize ∧ before.size = start ∧
      capacity = config.maxMessageSize ∧ start + capacity ≤ windowSize
  | .retire window =>
    config.dictionarySize ≤ window.size ∧
      window.size ≤ config.dictionarySize + config.maxMessageSize

/-- How a call ends with `room` bytes from the cursor to the end of the ring, after the decoder
ended like this. -/
def answerTo (room : Nat) : Except Failure Nat → Except Failure Nat
  | .error failure => .error failure
  | .ok size =>
    if size = 0 then .error .malformed
    else if room < size then .error .messageBeyondRing
    else .ok size

namespace Decompressor

variable {κ : Type}

/-! ### What a session keeps -/

/-- The call that the decoder gets for a frame: the whole ring, with room for one message at the
cursor. -/
def decodeCall (s : Decompressor (Traced κ)) (frame : Bytes) : CodecCall :=
  .decode frame.size s.config.ringCapacity s.cursor s.config.maxMessageSize s.window.history

/-- A session whose cursor is inside the dictionary, and whose decoder was called within the
ring alone. -/
structure Sound (s : Decompressor (Traced κ)) (config : WindowConfig) : Prop where
  config_eq : s.config = config
  serves : s.window.Serves
  calls_within : ∀ call ∈ s.decoder.calls, call.Within config

theorem withDecoder_sound (config : WindowConfig) (decoder : κ) :
    (withDecoder config (Traced.blank decoder)).Sound config.clamped :=
  ⟨rfl, Ring.empty_serves config, fun _ hcall => absurd hcall List.not_mem_nil⟩

variable {s : Decompressor (Traced κ)} {config : WindowConfig}

/-- The next call to the decoder keeps to the ring. -/
private theorem Sound.decodeCall_within (h : s.Sound config) (frame : Bytes) :
    (s.decodeCall frame).Within config := by
  have hregion := h.serves.region_le
  obtain rfl := h.config_eq
  exact ⟨h.serves.exact.ringCapacity_eq, h.serves.cursor_lt, h.serves.size_history, rfl, hregion⟩

/-- A window that is given up holds a dictionary, and no more than the ring does. -/
private theorem Sound.retired_within (h : s.Sound config) {w w' : Ring s.config} {len : Nat}
    {advance : Advance} (hadvance : w.advance len = .ok (advance, w')) :
    ∀ call ∈ advance.retired?.toList.map CodecCall.retire, call.Within config := by
  obtain rfl := h.config_eq
  intro call hcall
  rcases Ring.advance_cases hadvance with ⟨stop, hfull, hinside, rfl, -⟩ | ⟨stop, -, rfl, -⟩
  · simp only [Advance.retired?, Option.toList_some, List.map_cons, List.map_nil,
      List.mem_singleton] at hcall
    subst hcall
    have hsize : (w.bytes.toArray.extract 0 stop).size = stop := by
      rw [Array.size_extract, Vector.size_toArray]
      omega
    rw [CodecCall.Within, hsize, ← h.serves.exact.ringCapacity_eq]
    exact ⟨hfull, hinside⟩
  · simp [Advance.retired?] at hcall

variable [Decoder κ] {frame : Bytes}

/-! ### One call -/

/-- What the decoder does with a frame, the ring as it leaves it included. -/
def attempt (s : Decompressor (Traced κ)) (frame : Bytes) :
    Outcome Nat (κ × Vector UInt8 s.config.ringCapacity) :=
  Decoder.decode s.decoder.codec frame s.window.bytes s.cursor s.config.maxMessageSize

/-- **What a call with a frame that is not empty does**, in terms of what the decoder did. -/
structure Handles (s : Decompressor (Traced κ)) (dst frame : Bytes) : Prop where
  /-- A call that fails changes neither the destination nor the cursor nor the counters, and
  nothing is given up. -/
  refused : ∀ failure,
    answerTo (s.config.ringCapacity - s.cursor) (s.attempt frame).verdict = .error failure →
    ∃ s', s.process dst frame = .refused failure (s', dst) ∧
      s'.cursor = s.cursor ∧ s'.ledger = s.ledger ∧
      s'.decoder.calls = s.decoder.calls ++ [s.decodeCall frame]
  /-- A call that succeeds appends the bytes at the cursor, as many as were reported.  The ring
  up to the end of them is given up exactly if it holds a dictionary. -/
  done : ∀ size,
    answerTo (s.config.ringCapacity - s.cursor) (s.attempt frame).verdict = .ok size →
    let ring := (s.attempt frame).after.2.toArray
    let stop := s.cursor + size
    stop ≤ s.config.ringCapacity ∧
    ∃ s', s.process dst frame = .done size (s', dst ++ ring.extract s.cursor stop) ∧
      s'.cursor = (if s.config.dictionarySize ≤ stop then 0 else stop) ∧
      s'.ledger = s.ledger.record frame.size size ∧
      s'.decoder.calls = s.decoder.calls ++ [s.decodeCall frame] ++
        (if s.config.dictionarySize ≤ stop then [.retire (ring.extract 0 stop)] else [])

/-- The session after the decoder's call, and before anything is committed. -/
private def afterAttempt (s : Decompressor (Traced κ)) (frame : Bytes) :
    Decompressor (Traced κ) :=
  { s with
    decoder := ⟨(s.attempt frame).after.1, s.decoder.calls ++ [s.decodeCall frame]⟩
    window := { s.window with bytes := (s.attempt frame).after.2 } }

/-- Neither the configuration nor the cursor is the decoder's to change. -/
private theorem afterAttempt_serves (h : s.window.Serves) (frame : Bytes) :
    (s.afterAttempt frame).window.Serves :=
  ⟨h.exact, h.cursor_lt⟩

/-- The decoder is called as `decodeCall` says. -/
private theorem decode_eq_attempt (s : Decompressor (Traced κ)) (frame : Bytes) :
    Decoder.decode s.decoder frame s.window.bytes s.window.cursor s.window.messageCapacity
      = ⟨(s.attempt frame).verdict,
          (s.afterAttempt frame).decoder, (s.afterAttempt frame).window.bytes⟩ := rfl

/-- A call succeeds only with a message that lies inside the ring. -/
private theorem answerTo_eq_ok {room size : Nat} {verdict : Except Failure Nat}
    (h : answerTo room verdict = .ok size) :
    verdict = .ok size ∧ 0 < size ∧ size ≤ room := by
  cases verdict with
  | error failure => simp [answerTo] at h
  | ok reported =>
      by_cases hzero : reported = 0
      · simp [answerTo, hzero] at h
      · by_cases hlong : room < reported
        · simp [answerTo, hzero, hlong] at h
        · simp only [answerTo, hzero, hlong, if_false, Except.ok.injEq] at h
          subst h
          exact ⟨rfl, Nat.pos_of_ne_zero hzero, Nat.le_of_not_lt hlong⟩

/-- A call fails in one of three ways. -/
private theorem answerTo_eq_error {room : Nat} {failure : Failure} {verdict : Except Failure Nat}
    (h : answerTo room verdict = .error failure) :
    verdict = .error failure ∨ (verdict = .ok 0 ∧ failure = .malformed) ∨
      ∃ size, verdict = .ok size ∧ 0 < size ∧ room < size ∧ failure = .messageBeyondRing := by
  cases verdict with
  | error failure' =>
      rw [answerTo] at h
      exact .inl h
  | ok reported =>
      by_cases hzero : reported = 0
      · simp only [answerTo, hzero, if_true, Except.error.injEq] at h
        exact .inr (.inl ⟨by rw [hzero], h.symm⟩)
      · by_cases hlong : room < reported
        · simp only [answerTo, hzero, hlong, if_false, if_true, Except.error.injEq] at h
          exact .inr (.inr ⟨reported, rfl, Nat.pos_of_ne_zero hzero, hlong, h.symm⟩)
        · simp [answerTo, hzero, hlong] at h

/-- A call that fails leaves the session as the decoder's call left it. -/
private theorem process_of_answer_error (h : s.window.Serves) (hframe : 0 < frame.size)
    (dst : Bytes) {failure : Failure}
    (hwords : ∀ size, (s.attempt frame).verdict = .ok size → size ≤ maxWord)
    (hanswer : answerTo (s.config.ringCapacity - s.cursor) (s.attempt frame).verdict
      = .error failure) :
    s.process dst frame = .refused failure (s.afterAttempt frame, dst) := by
  have hdecode := s.decode_eq_attempt frame
  rcases answerTo_eq_error hanswer with hverdict | ⟨hverdict, rfl⟩
    | ⟨size, hverdict, hpos, hlong, rfl⟩
  · rw [hverdict] at hdecode
    exact process_of_error h hframe dst hdecode
  · rw [hverdict] at hdecode
    exact process_of_zero h hframe dst hdecode
  · have hsize := hwords size hverdict
    rw [hverdict] at hdecode
    have hmessage : (s.afterAttempt frame).window.message size = .error .messageBeyondRing :=
      Ring.message_eq_error h.exact.lt_word h.cursor_le hsize hlong
    have hprocess : s.process dst frame = (s.afterAttempt frame).commit frame.size size dst :=
      process_of_pos h hframe dst hdecode hpos
    rw [hprocess, commit, hmessage]

/-- **A session whose cursor is inside the dictionary handles every frame**, whatever the decoder
does with it. -/
theorem Handles.of_serves (h : s.window.Serves) (hframe : 0 < frame.size)
    (hwords : ∀ size, (s.attempt frame).verdict = .ok size → size ≤ maxWord) (dst : Bytes) :
    s.Handles dst frame where
  refused failure hanswer :=
    ⟨s.afterAttempt frame, process_of_answer_error h hframe dst hwords hanswer, rfl, rfl, rfl⟩
  done size hanswer := by
    intro ring stop
    obtain ⟨hverdict, hpos, hroom⟩ := answerTo_eq_ok hanswer
    have hcursor : s.cursor ≤ s.config.ringCapacity := h.cursor_le
    have hstop : stop ≤ s.config.ringCapacity := by
      show s.cursor + size ≤ s.config.ringCapacity
      omega
    have hdecode := s.decode_eq_attempt frame
    rw [hverdict] at hdecode
    have hprocess : s.process dst frame = (s.afterAttempt frame).commit frame.size size dst :=
      process_of_pos h hframe dst hdecode hpos
    obtain ⟨window, hcommit, hserves', hhistory⟩ :=
      commit_eq (afterAttempt_serves h frame) hstop frame.size dst
    -- What the decoder left up to the end of the message is the history with the message.
    have hjoined : (s.afterAttempt frame).window.history
        ++ (s.afterAttempt frame).window.ahead size = ring.extract 0 stop :=
      Ring.history_append_ahead
    have hsize : (ring.extract 0 stop).size = stop := by
      rw [Array.size_extract, Vector.size_toArray]
      omega
    have hturn : turn (s.afterAttempt frame).config.dictionarySize
          (s.afterAttempt frame).window.history ((s.afterAttempt frame).window.ahead size)
        = if s.config.dictionarySize ≤ stop then (.rolledOver (ring.extract 0 stop), #[])
          else (.continued, ring.extract 0 stop) := by
      unfold turn
      rw [hjoined, hsize]
      rfl
    refine ⟨hstop, _, hprocess.trans hcommit, ?_, rfl, ?_⟩
    · show window.cursor = _
      rw [← hserves'.size_history, hhistory, hturn]
      by_cases hfull : s.config.dictionarySize ≤ stop
      · rw [if_pos hfull, if_pos hfull]
        rfl
      · rw [if_neg hfull, if_neg hfull]
        exact hsize
    · rw [Traced.calls_settle, hturn]
      by_cases hfull : s.config.dictionarySize ≤ stop
      · rw [if_pos hfull, if_pos hfull]
        rfl
      · rw [if_neg hfull, if_neg hfull]
        rfl

/-! ### Any number of calls -/

/-- **No call makes a session unsound**, whatever the decoder did. -/
theorem Sound.process (h : s.Sound config) (dst frame : Bytes) :
    (s.process dst frame).after.1.Sound config := by
  rcases Nat.eq_zero_or_pos frame.size with hframe | hframe
  · rw [process_noData s hframe]
    exact h
  have hcalls : ∀ call ∈ s.decoder.calls ++ [s.decodeCall frame], call.Within config := by
    intro call hcall
    rcases List.mem_append.mp hcall with hold | hnew
    · exact h.calls_within call hold
    · rw [List.mem_singleton.mp hnew]
      exact h.decodeCall_within frame
  rcases process_cases h.serves hframe dst (s.decode_eq_attempt frame) with
    ⟨failure, dst', hprocess⟩ | ⟨size, message, advance, window, hadvance, hprocess⟩
  · rw [hprocess]
    exact ⟨h.config_eq, afterAttempt_serves h.serves frame, hcalls⟩
  · rw [hprocess]
    refine ⟨h.config_eq, (afterAttempt_serves h.serves frame).advance hadvance,
      fun call hcall => ?_⟩
    rw [Outcome.done, Traced.calls_settle] at hcall
    rcases List.mem_append.mp hcall with hold | hretired
    · exact hcalls call hold
    · exact h.retired_within hadvance call hretired

theorem Sound.foldl_receiveOne (calls : List (Bytes × Bytes)) :
    ∀ {state : Decompressor (Traced κ) × Bytes}, state.1.Sound config →
      (calls.foldl receiveOne state).1.Sound config := by
  induction calls with
  | nil => intro state h; exact h
  | cons call rest ih => intro state h; exact ih (h.process call.1 call.2)

/--
**A misbehaving decoder cannot break a session.**

Whatever the decoder did in any calls so far, the cursor is inside the dictionary, the
ring has its size, and every call to the decoder kept to the ring.  The next call ends as
`Handles` says: with the decoder's own failure, as malformed if it reports no byte, as
internal if it reports more than there is from the cursor on, and otherwise with exactly
the bytes it reports.  The session with the log and the one without it answer alike.

A length that the decoder reports is a word; no other assumption is made of it.
-/
theorem process_contained (config : WindowConfig) (decoder : κ) (calls : List (Bytes × Bytes)) :
    let s := ((withDecoder config (Traced.blank decoder)).receive calls).1
    let plain := ((withDecoder config decoder).receive calls).1
    s.map Traced.codec = plain ∧
    s.config = config.clamped ∧
    s.cursor < config.clamped.dictionarySize ∧
    s.window.bytes.toArray.size
      = config.clamped.dictionarySize + config.clamped.maxMessageSize ∧
    (∀ call ∈ s.decoder.calls, call.Within config.clamped) ∧
    ∀ dst frame,
      plain.process dst frame
        = (s.process dst frame).mapAfter (fun after => (after.1.map Traced.codec, after.2)) ∧
      (frame.size = 0 → s.process dst frame = .refused .noData (s, dst)) ∧
      (0 < frame.size → (∀ size, (s.attempt frame).verdict = .ok size → size ≤ maxWord) →
        s.Handles dst frame) := by
  intro s plain
  have hsound : s.Sound config.clamped :=
    Sound.foldl_receiveOne calls (withDecoder_sound config decoder)
  have hplain : s.map Traced.codec = plain :=
    (congrArg Prod.fst (receive_map Traced.toCodec
      (withDecoder config (Traced.blank decoder)) calls)).symm
  have hring : s.window.bytes.toArray.size
      = config.clamped.dictionarySize + config.clamped.maxMessageSize := by
    rw [Vector.size_toArray, hsound.serves.exact.ringCapacity_eq, hsound.config_eq]
  refine ⟨hplain, hsound.config_eq, ?_, hring, hsound.calls_within, fun dst frame => ⟨?_, ?_, ?_⟩⟩
  · rw [← hsound.config_eq]
    exact hsound.serves.cursor_lt
  · rw [← hplain]
    exact process_map Traced.toCodec s dst frame
  · exact fun hframe => process_noData s hframe dst
  · exact fun hframe hwords => .of_serves hsound.serves hframe hwords dst

/-- A decoder delivers five bytes and then reports a length that leads back to 0 if it is added to
the cursor in a word.  The second call is refused, and nothing but the decoder has seen it. -/
theorem process_contained_overlong :
    let decoder : Scripted := ⟨[.emit #[104, 101, 108, 108, 111] 5, .emit #[] (maxWord - 4)], []⟩
    let s := ((withDecoder {} (Traced.blank decoder)).receive [(#[], #[1])]).1
    s.cursor = 5 ∧
    ∃ s', s.process #[7] #[1] = .refused .messageBeyondRing (s', #[7]) ∧
      s'.cursor = 5 ∧ s'.ledger = s.ledger ∧
      s'.decoder.calls = s.decoder.calls ++ [s.decodeCall #[1]] := by
  intro decoder
  obtain ⟨-, hconfig, -, -, -, hcall⟩ := process_contained {} decoder [(#[], #[1])]
  have hcursor : ((withDecoder {} (Traced.blank decoder)).receive [(#[], #[1])]).1.cursor = 5 := by
    decide +kernel
  have hscript : ((withDecoder {} (Traced.blank decoder)).receive
      [(#[], #[1])]).1.decoder.codec.script = [.emit #[] (maxWord - 4)] := by
    decide +kernel
  generalize ((withDecoder {} (Traced.blank decoder)).receive [(#[], #[1])]).1 = s at *
  have hverdict : (s.attempt #[1]).verdict = .ok (maxWord - 4) := by
    show (Scripted.decode s.decoder.codec _ _ _ _).verdict = _
    simp only [Scripted.decode, Scripted.next, hscript]
    rfl
  have hword : ∀ size, (s.attempt #[1]).verdict = .ok size → size ≤ maxWord := by
    intro size hsize
    rw [hverdict, Except.ok.injEq] at hsize
    omega
  have hanswer : answerTo (s.config.ringCapacity - s.cursor) (s.attempt #[1]).verdict
      = .error .messageBeyondRing := by
    rw [hverdict, hcursor, hconfig]
    rfl
  obtain ⟨s', hprocess, hsame, hledger, hcalls⟩ :=
    ((hcall #[7] #[1]).2.2 (by decide) hword).refused .messageBeyondRing hanswer
  exact ⟨hcursor, s', hprocess, hsame.trans hcursor, hledger, hcalls⟩

end Decompressor

end WindowedLz4
