/-
What a receiving session delivers.

`messageOf` is a receiver that remembers everything: it has all the plaintext so far
as one byte string, and decodes a frame behind the last bytes of it.  It has no ring,
no cursor and no codec context, so nothing a session does with those can be told from
outside (`process_messageOf`): not what a failed frame or an earlier lap left in the
ring, not where one message ended and the next began, not how often the ring wrapped,
and not what the destination held.

The induction is on the calls, and `Follows` is what it carries.  A call that is
delivered extends the past by its message, and any other call leaves it alone.
-/
import WindowedLz4.Proofs.Session.Decompressor
namespace WindowedLz4

/-- The message of a frame behind all of `past`, for dictionaries that reach back `reach`
bytes and messages of at most `room`. -/
def messageOf (reach room : Nat) (past frame : Bytes) : Except Failure Bytes :=
  if frame.size = 0 then .error .noData
  else
    match expandFrame (lastBytes reach past) room frame with
    | .ok plain => if plain.size = 0 then .error .malformed else .ok plain
    | .error _ => .error .malformed

section Message

variable {reach room : Nat} {past frame message : Bytes} {failure : Failure}

theorem messageOf_eq_ok (h : messageOf reach room past frame = .ok message) :
    0 < frame.size ∧ expandFrame (lastBytes reach past) room frame = .ok message ∧
      0 < message.size := by
  by_cases hframe : frame.size = 0
  · simp [messageOf, hframe] at h
  · rw [messageOf, if_neg hframe] at h
    split at h
    · next plain hplain =>
      by_cases hzero : plain.size = 0
      · simp [hzero] at h
      · rw [if_neg hzero, Except.ok.injEq] at h
        subst h
        exact ⟨Nat.pos_of_ne_zero hframe, hplain, Nat.pos_of_ne_zero hzero⟩
    · simp at h

theorem messageOf_eq_error (h : messageOf reach room past frame = .error failure) :
    frame.size = 0 ∧ failure = .noData ∨
    0 < frame.size ∧ failure = .malformed ∧
      ∀ plain, expandFrame (lastBytes reach past) room frame = .ok plain → plain.size = 0 := by
  by_cases hframe : frame.size = 0
  · rw [messageOf, if_pos hframe, Except.error.injEq] at h
    exact .inl ⟨hframe, h.symm⟩
  · refine .inr ⟨Nat.pos_of_ne_zero hframe, ?_⟩
    rw [messageOf, if_neg hframe] at h
    split at h
    · next plain hplain =>
      by_cases hzero : plain.size = 0
      · rw [if_pos hzero, Except.error.injEq] at h
        refine ⟨h.symm, fun plain' hplain' => ?_⟩
        rw [hplain, Except.ok.injEq] at hplain'
        rwa [← hplain']
      · simp [hzero] at h
    · next stuck hplain =>
      rw [Except.error.injEq] at h
      refine ⟨h.symm, fun plain' hplain' => ?_⟩
      simp [hplain] at hplain'

end Message

/-- The messages of frames that follow one another. -/
def messagesOf (reach room : Nat) (past : Bytes) : List Bytes → List (Except Failure Bytes)
  | [] => []
  | frame :: rest =>
    let message := messageOf reach room past frame
    message :: messagesOf reach room (past ++ message.toOption.getD #[]) rest

namespace Decompressor

variable {δ : Type} [Decoder δ]

/-- One call, with what its destination holds: the session after it, and the plaintext so far
with what the call appended if it succeeded. -/
def receiveOne (state : Decompressor δ × Bytes) (call : Bytes × Bytes) : Decompressor δ × Bytes :=
  let o := state.1.process call.1 call.2
  (o.after.1, match o.verdict with
    | .ok _ => state.2 ++ o.after.2.extract call.1.size o.after.2.size
    | .error _ => state.2)

/-- The session after some calls, and the plaintext of those that succeeded. -/
def receive (s : Decompressor δ) (calls : List (Bytes × Bytes)) : Decompressor δ × Bytes :=
  calls.foldl receiveOne (s, #[])

/-- What each of some calls appends, or why it fails. -/
def answers (s : Decompressor δ) : List (Bytes × Bytes) → List (Except Failure Bytes)
  | [] => []
  | (dst, frame) :: rest =>
    let o := s.process dst frame
    o.verdict.map (fun _ => o.after.2.extract dst.size o.after.2.size) :: o.after.1.answers rest

variable {s : Decompressor Lz4Context} {config : WindowConfig} {reach : Nat} {past : Bytes}

/-- A call that is delivered appends the message to the destination and to the past. -/
theorem Follows.process_messageOf_ok (h : s.Follows config reach past) {frame message : Bytes}
    (hmessage : messageOf reach config.maxMessageSize past frame = .ok message) (dst : Bytes) :
    ∃ s', s.process dst frame = .done message.size (s', dst ++ message) ∧
      s'.Follows config reach (past ++ message) := by
  obtain ⟨hframe, hplain, hpos⟩ := messageOf_eq_ok hmessage
  obtain ⟨s', hprocess, hfollows, -, -⟩ := h.process_delivers hframe hplain hpos dst
  exact ⟨s', hprocess, hfollows⟩

/-- Any other call leaves the destination, the past, the history, the cursor and the counters. -/
theorem Follows.process_messageOf_error (h : s.Follows config reach past) {frame : Bytes}
    {failure : Failure}
    (hmessage : messageOf reach config.maxMessageSize past frame = .error failure) (dst : Bytes) :
    ∃ s', s.process dst frame = .refused failure (s', dst) ∧ s'.Follows config reach past ∧
      s'.window.history = s.window.history ∧ s'.cursor = s.cursor ∧ s'.ledger = s.ledger := by
  rcases messageOf_eq_error hmessage with ⟨hframe, rfl⟩ | ⟨hframe, rfl, hzero⟩
  · exact ⟨s, process_noData s hframe dst, h, rfl, rfl, rfl⟩
  · obtain ⟨s', hprocess, hfollows, hhistory, hledger⟩ := h.process_malformed hframe hzero dst
    have hcursor := hfollows.serves.size_history
    rw [hhistory, h.serves.size_history] at hcursor
    exact ⟨s', hprocess, hfollows, hhistory, hcursor.symm, hledger⟩

/-! ### Runs -/

theorem Follows.receiveOne (h : s.Follows config reach past) (call : Bytes × Bytes) :
    (Decompressor.receiveOne (s, past) call).1.Follows config reach
      (Decompressor.receiveOne (s, past) call).2 := by
  unfold Decompressor.receiveOne
  cases hmessage : messageOf reach config.maxMessageSize past call.2 with
  | ok message =>
      obtain ⟨s', hprocess, hfollows⟩ := h.process_messageOf_ok hmessage call.1
      simp only [hprocess, Outcome.done, extract_append_size]
      exact hfollows
  | error failure =>
      obtain ⟨s', hprocess, hfollows, -⟩ := h.process_messageOf_error hmessage call.1
      simp only [hprocess, Outcome.refused]
      exact hfollows

/-- A session follows the plaintext of the calls that succeeded. -/
theorem Follows.foldl_receiveOne (calls : List (Bytes × Bytes)) :
    ∀ {state : Decompressor Lz4Context × Bytes}, state.1.Follows config reach state.2 →
      (calls.foldl Decompressor.receiveOne state).1.Follows config reach
        (calls.foldl Decompressor.receiveOne state).2 := by
  induction calls with
  | nil => intro state h; exact h
  | cons call rest ih => intro state h; exact ih (h.receiveOne call)

/-- A session answers calls as the receiver that remembers everything does. -/
theorem Follows.answers_eq (calls : List (Bytes × Bytes)) :
    ∀ {s : Decompressor Lz4Context} {past : Bytes}, s.Follows config reach past →
      s.answers calls
        = messagesOf reach config.maxMessageSize past (calls.map fun call => call.2) := by
  induction calls with
  | nil => intro s past _; rfl
  | cons call rest ih =>
      obtain ⟨dst, frame⟩ := call
      intro s past h
      rw [answers, List.map_cons, messagesOf]
      cases hmessage : messageOf reach config.maxMessageSize past frame with
      | ok message =>
          obtain ⟨s', hprocess, hfollows⟩ := h.process_messageOf_ok hmessage dst
          simp only [hprocess, Outcome.done, Except.map, extract_append_size, Except.toOption,
            Option.getD_some]
          rw [ih hfollows]
      | error failure =>
          obtain ⟨s', hprocess, hfollows, -⟩ := h.process_messageOf_error hmessage dst
          simp only [hprocess, Outcome.refused, Except.map, Except.toOption, Option.getD_none,
            Array.append_empty]
          rw [ih hfollows]

/--
**A receiving session is a receiver that remembers everything.**

After any calls, with any frames and any destinations, the next one fails if its frame
is empty; otherwise it succeeds exactly if the frame decodes to at least one byte
behind the last bytes of the plaintext so far, and appends those bytes.  A call that
fails leaves its destination, the cursor and the counters as they were.  And all calls
to come are answered from that plaintext and their frames alone.
-/
theorem process_messageOf (config : WindowConfig) (calls : List (Bytes × Bytes)) :
    let s := ((lz4 config).receive calls).1
    let past := ((lz4 config).receive calls).2
    (∀ dst frame,
      match messageOf config.reach config.clamped.maxMessageSize past frame with
      | .ok message =>
        (s.process dst frame).verdict = .ok message.size ∧
          (s.process dst frame).after.2 = dst ++ message
      | .error failure =>
        (s.process dst frame).verdict = .error failure ∧
          (s.process dst frame).after.2 = dst ∧
          (s.process dst frame).after.1.cursor = s.cursor ∧
          (s.process dst frame).after.1.ledger = s.ledger) ∧
    ∀ more : List (Bytes × Bytes),
      s.answers more
        = messagesOf config.reach config.clamped.maxMessageSize past
            (more.map fun call => call.2) := by
  intro s past
  have hfollows : s.Follows config.clamped config.reach past :=
    Follows.foldl_receiveOne calls (withDecoder_follows config config.clamped)
  refine ⟨fun dst frame => ?_, fun more => Follows.answers_eq more hfollows⟩
  cases hmessage : messageOf config.reach config.clamped.maxMessageSize past frame with
  | ok message =>
      obtain ⟨s', hprocess, -⟩ := hfollows.process_messageOf_ok hmessage dst
      rw [hprocess]
      exact ⟨rfl, rfl⟩
  | error failure =>
      obtain ⟨s', hprocess, -, -, hcursor, hledger⟩ := hfollows.process_messageOf_error hmessage dst
      rw [hprocess]
      exact ⟨rfl, rfl, hcursor, hledger⟩

end Decompressor

end WindowedLz4
