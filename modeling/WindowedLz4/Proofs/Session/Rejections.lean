/-
What an LZ4 session refuses.

A session checks itself at every turn: that the buffer has room, that a commit has the
length of the message, that the region for a message lies inside the ring, that the
encoding fits the room set aside for it.  None of these checks ever fires, whatever the
session was asked to do before and whatever dictionary size its codec context was made
for, since `Follows` holds after every run of calls.  What is left to refuse is what the
caller can see for itself: a message that gets too long, a call without data, and a
frame that does not decode.

A refusal leaves no trace.  The sending side is the same value as before.  The receiving
side may have other stale bytes behind its cursor and nothing else.
-/
import WindowedLz4.Proofs.Session.Frames
import WindowedLz4.Proofs.Session.Messages
namespace WindowedLz4

/-- Why a call failed, if it did. -/
def Outcome.failure? {α σ : Type} (o : Outcome α σ) : Option Failure :=
  match o.verdict with
  | .ok _ => none
  | .error failure => some failure

/-- A failure that says something about the call: the session does not contradict itself, and
the failures that belong to single blocks are left out. -/
structure Failure.IsRejection (failure : Failure) : Prop where
  not_fatal : failure.isFatal = false
  ne_sourceTooLarge : ∀ len max, failure ≠ .sourceTooLarge len max
  ne_capacity : ∀ available, failure ≠ .capacity available

namespace Failure

theorem isRejection_messageTooLarge (pending incoming max : Nat) :
    (messageTooLarge pending incoming max).IsRejection :=
  ⟨rfl, fun _ _ h => Failure.noConfusion h, fun _ h => Failure.noConfusion h⟩

theorem isRejection_noData : noData.IsRejection :=
  ⟨rfl, fun _ _ h => Failure.noConfusion h, fun _ h => Failure.noConfusion h⟩

theorem isRejection_malformed : malformed.IsRejection :=
  ⟨rfl, fun _ _ h => Failure.noConfusion h, fun _ h => Failure.noConfusion h⟩

end Failure

/-! ### Sending -/

namespace Compressor

/-- A session for messages of at most `room` bytes refuses what it must, and a refusal leaves
the session and the destination as they were. -/
structure RefusesExactly (s : Compressor Lz4Context) (room : Nat) : Prop where
  /-- A write is refused exactly if it would make the message too long. -/
  write : ∀ src, (s.write src).failure?
    = if src.size ≠ 0 ∧ room < s.pendingSize + src.size then
        some (.messageTooLarge s.pendingSize src.size room)
      else none
  /-- Processing is refused exactly if nothing is pending. -/
  process : ∀ dst, (s.process dst).failure? = if s.pendingSize = 0 then some .noData else none
  /-- A message that is compressed at once is refused as its write is, or for want of data. -/
  compressMessage : ∀ message dst, (s.compressMessage message dst).failure?
    = if message.size ≠ 0 ∧ room < s.pendingSize + message.size then
        some (.messageTooLarge s.pendingSize message.size room)
      else if s.pendingSize + message.size = 0 then some .noData
      else none
  write_unchanged : ∀ src, (s.write src).failure? ≠ none → (s.write src).after = s
  process_unchanged : ∀ dst, (s.process dst).failure? ≠ none → (s.process dst).after = (s, dst)
  compressMessage_unchanged : ∀ message dst, (s.compressMessage message dst).failure? ≠ none →
    (s.compressMessage message dst).after = (s, dst)

variable {s : Compressor Lz4Context} {config : WindowConfig} {reach : Nat}
  {past pending : Bytes}

/-- A write is accepted, and the session has more pending, or it is refused for its length. -/
private theorem Follows.write_cases (h : s.Follows config reach past pending) (src : Bytes) :
    ¬ (src.size ≠ 0 ∧ config.maxMessageSize < pending.size + src.size) ∧
      (∃ s', s.write src = .done () s' ∧ s'.Follows config reach past (pending ++ src)) ∨
    (src.size ≠ 0 ∧ config.maxMessageSize < pending.size + src.size) ∧
      s.write src = .refused (.messageTooLarge pending.size src.size config.maxMessageSize) s := by
  by_cases hlong : config.maxMessageSize < pending.size + src.size
  · have hpos : src.size ≠ 0 := by
      have := h.size_pending_le
      omega
    exact .inr ⟨⟨hpos, hlong⟩, h.write_refuses hlong⟩
  · obtain ⟨s', hwrite, hfollows, -⟩ := h.write_accepts (Nat.le_of_not_lt hlong)
    exact .inl ⟨fun hrefused => hlong hrefused.2, s', hwrite, hfollows⟩

private theorem Follows.failure?_process (h : s.Follows config reach past pending) (dst : Bytes) :
    (s.process dst).failure? = if pending.size = 0 then some .noData else none := by
  split
  · next hzero => rw [h.process_noData hzero]; rfl
  · next hne =>
    obtain ⟨s', hprocess, -⟩ := h.process_frames (Nat.pos_of_ne_zero hne) dst
    rw [hprocess]
    rfl

private theorem Follows.process_unchanged (h : s.Follows config reach past pending) (dst : Bytes)
    (hfailed : (s.process dst).failure? ≠ none) : (s.process dst).after = (s, dst) := by
  rw [h.failure?_process] at hfailed
  split at hfailed
  · next hzero => rw [h.process_noData hzero]; rfl
  · exact absurd rfl hfailed

theorem Follows.refusesExactly (h : s.Follows config reach past pending) :
    s.RefusesExactly config.maxMessageSize := by
  have hsize := h.pendingSize_eq
  refine ⟨fun src => ?_, fun dst => ?_, fun message dst => ?_, fun src hfailed => ?_,
    h.process_unchanged, fun message dst hfailed => ?_⟩
  · rw [hsize]
    rcases h.write_cases src with ⟨hfit, s', hwrite, -⟩ | ⟨hlong, hwrite⟩
    · rw [hwrite, if_neg hfit]
      rfl
    · rw [hwrite, if_pos hlong]
      rfl
  · rw [hsize]
    exact h.failure?_process dst
  · rw [hsize, Compressor.compressMessage]
    rcases h.write_cases message with ⟨hfit, s', hwrite, hfollows⟩ | ⟨hlong, hwrite⟩
    · rw [hwrite, if_neg hfit, ← Array.size_append]
      exact hfollows.failure?_process dst
    · rw [hwrite, if_pos hlong]
      rfl
  · rcases h.write_cases src with ⟨-, s', hwrite, -⟩ | ⟨-, hwrite⟩
    · rw [hwrite] at hfailed
      exact absurd rfl hfailed
    · rw [hwrite]
      rfl
  · rw [Compressor.compressMessage] at hfailed ⊢
    rcases h.write_cases message with ⟨hfit, s', hwrite, hfollows⟩ | ⟨hlong, hwrite⟩
    · rw [hwrite] at hfailed ⊢
      have hzero : message.size = 0 := by
        have hfailure := hfollows.failure?_process dst
        rw [Array.size_append] at hfailure
        split at hfailure
        · omega
        · exact absurd hfailure hfailed
      have hsame : s.write message = .done () s := if_pos hzero
      obtain rfl : s' = s := congrArg Outcome.after (hwrite.symm.trans hsame)
      exact hfollows.process_unchanged dst hfailed
    · rw [hwrite]
      rfl

/-- Why a call fails, if it does. -/
def failure? (s : Compressor Lz4Context) : Call → Option Failure
  | .write src => (s.write src).failure?
  | .process dst => (s.process dst).failure?
  | .compressMessage message dst => (s.compressMessage message dst).failure?

theorem RefusesExactly.isRejection {room : Nat} (h : s.RefusesExactly room) {call : Call}
    {failure : Failure} (hfailed : s.failure? call = some failure) : failure.IsRejection := by
  cases call with
  | write src =>
      rw [failure?, h.write] at hfailed
      split at hfailed
      · rw [← Option.some.inj hfailed]
        exact Failure.isRejection_messageTooLarge _ _ _
      · simp at hfailed
  | process dst =>
      rw [failure?, h.process] at hfailed
      split at hfailed
      · rw [← Option.some.inj hfailed]
        exact Failure.isRejection_noData
      · simp at hfailed
  | compressMessage message dst =>
      rw [failure?, h.compressMessage] at hfailed
      split at hfailed
      · rw [← Option.some.inj hfailed]
        exact Failure.isRejection_messageTooLarge _ _ _
      · split at hfailed
        · rw [← Option.some.inj hfailed]
          exact Failure.isRejection_noData
        · simp at hfailed

end Compressor

/-! ### Receiving -/

namespace Decompressor

/-- A session refuses a frame that is empty, and of the others only some that do not decode.
A refusal leaves the destination, the cursor, the bytes before it and the counters. -/
structure RefusesExactly (s : Decompressor Lz4Context) : Prop where
  process : ∀ dst frame,
    if frame.size = 0 then (s.process dst frame).failure? = some .noData
    else (s.process dst frame).failure? = none ∨ (s.process dst frame).failure? = some .malformed
  process_unchanged : ∀ dst frame, (s.process dst frame).failure? ≠ none →
    (s.process dst frame).after.2 = dst ∧
      (s.process dst frame).after.1.cursor = s.cursor ∧
      (s.process dst frame).after.1.window.history = s.window.history ∧
      (s.process dst frame).after.1.ledger = s.ledger

variable {s : Decompressor Lz4Context} {config : WindowConfig} {reach : Nat} {past : Bytes}

theorem Follows.refusesExactly (h : s.Follows config reach past) : s.RefusesExactly := by
  refine ⟨fun dst frame => ?_, fun dst frame hfailed => ?_⟩
  · split
    · next hzero => rw [process_noData s hzero]; rfl
    · next hne =>
      cases hmessage : messageOf reach config.maxMessageSize past frame with
      | ok message =>
          obtain ⟨s', hprocess, -⟩ := h.process_messageOf_ok hmessage dst
          rw [hprocess]
          exact .inl rfl
      | error failure =>
          obtain ⟨s', hprocess, -⟩ := h.process_messageOf_error hmessage dst
          obtain ⟨hzero, -⟩ | ⟨-, rfl, -⟩ := messageOf_eq_error hmessage
          · exact absurd hzero hne
          · rw [hprocess]
            exact .inr rfl
  · cases hmessage : messageOf reach config.maxMessageSize past frame with
    | ok message =>
        obtain ⟨s', hprocess, -⟩ := h.process_messageOf_ok hmessage dst
        rw [hprocess] at hfailed
        exact absurd rfl hfailed
    | error failure =>
        obtain ⟨s', hprocess, -, hhistory, hcursor, hledger⟩ :=
          h.process_messageOf_error hmessage dst
        rw [hprocess]
        exact ⟨rfl, hcursor, hhistory, hledger⟩

theorem RefusesExactly.isRejection (h : s.RefusesExactly) {dst frame : Bytes} {failure : Failure}
    (hfailed : (s.process dst frame).failure? = some failure) : failure.IsRejection := by
  have hprocess := h.process dst frame
  rw [hfailed] at hprocess
  split at hprocess
  · rw [Option.some.inj hprocess]
    exact Failure.isRejection_noData
  · rcases hprocess with hnone | hmalformed
    · simp at hnone
    · rw [Option.some.inj hmalformed]
      exact Failure.isRejection_malformed

end Decompressor

/--
**A session never contradicts itself, and what it refuses it leaves alone.**

After any calls, for any sizes and with codec contexts made for any dictionary size: no
call fails but for something that the caller gave it.  The sending side refuses a message
that gets too long, with its numbers, and a call without data; the receiving side refuses
an empty frame and frames that do not decode.  Each refusal leaves what is pending, the
cursor, the history, the counters and the destination exactly as they were.
-/
theorem refuses_exactly (config codec : WindowConfig) (sent : List Compressor.Call)
    (received : List (Bytes × Bytes)) :
    let s := ((Compressor.withEncoder config (Lz4Context.ofConfig codec)).run sent).1
    let r := ((Decompressor.withDecoder config (Lz4Context.ofConfig codec)).receive received).1
    s.RefusesExactly config.clamped.maxMessageSize ∧ r.RefusesExactly ∧
      (∀ call failure, s.failure? call = some failure → failure.IsRejection) ∧
      ∀ dst frame failure, (r.process dst frame).failure? = some failure →
        failure.IsRejection := by
  intro s r
  have hsends : s.Transcribes config.clamped (min codec.dictionarySize maxDistance) _ :=
    Compressor.Transcribes.foldl_serveOne sent ⟨Compressor.withEncoder_follows config codec, rfl⟩
  have hs : s.RefusesExactly config.clamped.maxMessageSize := hsends.follows.refusesExactly
  have hr : r.RefusesExactly := (Decompressor.Follows.foldl_receiveOne received
    (Decompressor.withDecoder_follows config codec)).refusesExactly
  exact ⟨hs, hr, fun _ _ => hs.isRejection, fun _ _ _ => hr.isRejection⟩

/-- Behind three bytes, a write of 254 is one too many for the smallest messages. -/
theorem refuses_exactly_full :
    let s := ((Compressor.withEncoder ⟨0, 0⟩ (Lz4Context.ofConfig ⟨0, 0⟩)).run
      [.write #[1, 2, 3]]).1
    s.failure? (.write (Array.replicate 254 0)) = some (.messageTooLarge 3 254 256) ∧
      (Failure.messageTooLarge 3 254 256).IsRejection := by
  intro s
  have hfailed : s.failure? (.write (Array.replicate 254 0))
      = some (.messageTooLarge 3 254 256) := by decide +kernel
  exact ⟨hfailed, (refuses_exactly ⟨0, 0⟩ ⟨0, 0⟩ [.write #[1, 2, 3]] []).2.2.1 _ _ hfailed⟩

end WindowedLz4
