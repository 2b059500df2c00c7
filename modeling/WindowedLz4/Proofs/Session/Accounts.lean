/-
What the ledgers of sessions are ledgers of.

A session records a call in one place, at the end of a commit, and every early exit
leaves before that.  So over any codec the ledger is that of the calls that succeeded
(`ledger_next`), and a write moves bytes to the pending message that a call then moves to
the ledger: what was accepted is in the one or in the other (`balance_next`).

A codec may report any length.  LZ4 reports what it appended, and appends nothing when it
fails, so there the output is what all the destinations grew by (`output_next`).  And what
one end of a link has recorded of its messages and frames, the other end has recorded of
those that were taken (`Link.Balances`), with the two sides changed over.

All of it holds of one call and is summed over a run by `measure_foldl`.
-/
import WindowedLz4.Proofs.Ledger
import WindowedLz4.Proofs.Session.Link
namespace WindowedLz4

namespace Outcome

variable {σ : Type}

/-- What a call adds to a ledger: nothing if it failed. -/
def recorded? (o : Outcome Nat σ) (source : Nat) : Option Entry :=
  o.verdict.toOption.map fun output => ⟨source, output⟩

/-- By how much a call made its destination longer. -/
def grown (o : Outcome Nat (σ × Bytes)) (dst : Bytes) : Nat :=
  o.after.2.size - dst.size

variable {o : Outcome Nat (σ × Bytes)} {dst : Bytes} {answer : Except Failure Bytes}

/-- A call that appends an answer is recorded with the length of it. -/
theorem Appends.recorded?_eq (h : o.Appends dst answer) (source : Nat) :
    o.recorded? source = answer.toOption.map fun bytes => ⟨source, bytes.size⟩ := by
  rw [recorded?, h.1]
  cases answer <;> rfl

/-- Its destination grows by as much as is recorded. -/
theorem Appends.outputBytes_eq (h : o.Appends dst answer) (source : Nat) :
    (Ledger.ofEntries (o.recorded? source).toList).outputBytes = o.grown dst := by
  rw [h.recorded?_eq, grown, h.2, Array.size_append, Nat.add_sub_cancel_left]
  cases answer <;> rfl

end Outcome

/-! ### Sending, with any codec -/

namespace Compressor

section Codec

variable {ε : Type}

/-- A write leaves the ledger alone, and what was accepted of it is pending. -/
theorem write_accounts (s : Compressor ε) (src : Bytes) :
    (s.write src).after.ledger = s.ledger ∧
      (s.write src).after.pendingSize = s.pendingSize + (accepted src (s.write src)).size := by
  by_cases hzero : src.size = 0
  · have hwrite : s.write src = .done () s := if_pos hzero
    rw [hwrite]
    exact ⟨rfl, by rw [accepted, Outcome.done, Except.toOption, Option.elim_some, hzero]; rfl⟩
  · by_cases hlong : s.config.maxMessageSize < s.pendingSize + src.size
    · rw [write, if_neg hzero, if_pos hlong]
      exact ⟨rfl, rfl⟩
    · rw [write, if_neg hzero, if_neg hlong]
      by_cases hfull : s.window.capacity < s.window.buffer.size + src.size
      · rw [Growing.append, if_pos hfull]
        exact ⟨rfl, rfl⟩
      · rw [Growing.append, if_neg hfull]
        refine ⟨rfl, ?_⟩
        have hstart := s.window.start_le
        show (s.window.buffer ++ src).size - s.window.start
          = s.window.buffer.size - s.window.start + src.size
        rw [Array.size_append]
        omega

variable [Encoder ε]

/-- The session after one call. -/
def next (s : Compressor ε) (call : Call) : Compressor ε :=
  (s.serve call).1

/-- What a call adds to the ledger.  A message that is compressed at once goes with what was
pending before it. -/
def recorded? (s : Compressor ε) : Call → Option Entry
  | .write _ => none
  | .process dst => (s.process dst).recorded? s.pendingSize
  | .compressMessage message dst =>
    (s.compressMessage message dst).recorded? (s.pendingSize + message.size)

/-- By how much a call made its destination longer. -/
def grown (s : Compressor ε) : Call → Nat
  | .write _ => 0
  | .process dst => (s.process dst).grown dst
  | .compressMessage message dst => (s.compressMessage message dst).grown dst

/-- The calls that succeeded in making a frame, each with the length of its message and the length
that it returned. -/
def entries (s : Compressor ε) (calls : List Call) : List Entry :=
  (visits next s calls).filterMap fun visit => visit.1.recorded? visit.2

/-- The bytes of all the writes that were accepted. -/
def acceptedBytes (s : Compressor ε) (calls : List Call) : Nat :=
  ((visits next s calls).map fun visit => (visit.1.serve visit.2).2.accepted.size).sum

/-- By how much all the calls made their destinations longer. -/
def grownBytes (s : Compressor ε) (calls : List Call) : Nat :=
  ((visits next s calls).map fun visit => visit.1.grown visit.2).sum

theorem run_fst (s : Compressor ε) (calls : List Call) :
    (s.run calls).1 = calls.foldl next s :=
  (List.foldl_hom Prod.fst fun _ _ => rfl).symm

/-- Processing leaves the ledger and the pending message alone, or it records the whole pending
message and nothing is pending. -/
theorem process_accounts (s : Compressor ε) (dst : Bytes) :
    (∃ failure s' dst', s.process dst = .refused failure (s', dst') ∧
      s'.ledger = s.ledger ∧ s'.pendingSize = s.pendingSize) ∨
    ∃ size s' dst', s.process dst = .done size (s', dst') ∧
      s'.ledger = s.ledger.record s.pendingSize size ∧ s'.pendingSize = 0 := by
  rcases Nat.eq_zero_or_pos s.pendingSize with hzero | hpos
  · exact .inl ⟨.noData, s, dst, process_noData hzero dst, rfl, rfl⟩
  rcases hencode : Encoder.encode s.encoder s.window.buffer s.window.start dst with
    ⟨failure | size, encoder, dst'⟩
  · exact .inl ⟨failure, { s with encoder }, dst', process_of_error hpos hencode, rfl, rfl⟩
  · obtain ⟨window, hcommit, -, -, -, hpending⟩ :=
      ({ s with encoder } : Compressor ε).commit_done size
    have hprocess := process_eq_commit hpos hencode
    rw [hcommit] at hprocess
    refine .inr ⟨size, _, dst', hprocess, rfl, ?_⟩
    show window.pendingSize = 0
    rw [← window.size_pending, hpending]
    rfl

/-- **A call adds its entry to the ledger, if it succeeded, and nothing else does.** -/
theorem ledger_next (s : Compressor ε) (call : Call) :
    (s.next call).ledger = s.ledger + .ofEntries (s.recorded? call).toList := by
  have hprocess : ∀ (s : Compressor ε) (dst : Bytes), (s.process dst).after.1.ledger
      = s.ledger + .ofEntries ((s.process dst).recorded? s.pendingSize).toList := by
    intro s dst
    rcases s.process_accounts dst with ⟨failure, s', dst', hprocess, hledger, -⟩
      | ⟨size, s', dst', hprocess, hledger, -⟩
    · rw [hprocess]
      exact hledger.trans (add_zero s.ledger).symm
    · rw [hprocess]
      exact hledger
  cases call with
  | write src => exact (s.write_accounts src).1.trans (add_zero s.ledger).symm
  | process dst => exact hprocess s dst
  | compressMessage message dst =>
      obtain ⟨hledger, hpending⟩ := s.write_accounts message
      show (s.compressMessage message dst).after.1.ledger
        = s.ledger + .ofEntries ((s.compressMessage message dst).recorded?
          (s.pendingSize + message.size)).toList
      rcases s.compressMessage_cases message dst with ⟨failure, s', hwrite, hcompress⟩
        | ⟨s', hwrite, hcompress⟩
      · rw [hwrite] at hledger
        rw [hcompress]
        exact hledger.trans (add_zero s.ledger).symm
      · rw [hwrite] at hledger hpending
        have hsize : s'.pendingSize = s.pendingSize + message.size := hpending
        have hsame : s'.ledger = s.ledger := hledger
        rw [hcompress, ← hsize, ← hsame]
        exact hprocess s' dst

/-- **What is accepted is pending until it is recorded**, and what is recorded was pending. -/
theorem balance_next (s : Compressor ε) (call : Call) :
    (s.next call).ledger.sourceBytes + (s.next call).pendingSize
      = s.ledger.sourceBytes + s.pendingSize + (s.serve call).2.accepted.size := by
  have hprocess : ∀ (s : Compressor ε) (dst : Bytes),
      (s.process dst).after.1.ledger.sourceBytes + (s.process dst).after.1.pendingSize
        = s.ledger.sourceBytes + s.pendingSize := by
    intro s dst
    rcases s.process_accounts dst with ⟨failure, s', dst', hprocess, hledger, hpending⟩
      | ⟨size, s', dst', hprocess, hledger, hpending⟩
    · rw [hprocess]
      show s'.ledger.sourceBytes + s'.pendingSize = _
      rw [hledger, hpending]
    · rw [hprocess]
      show s'.ledger.sourceBytes + s'.pendingSize = _
      rw [hledger, hpending]
      rfl
  cases call with
  | write src =>
      obtain ⟨hledger, hpending⟩ := s.write_accounts src
      show (s.write src).after.ledger.sourceBytes + (s.write src).after.pendingSize
        = s.ledger.sourceBytes + s.pendingSize + (accepted src (s.write src)).size
      rw [hledger, hpending, Nat.add_assoc]
  | process dst => exact hprocess s dst
  | compressMessage message dst =>
      obtain ⟨hledger, hpending⟩ := s.write_accounts message
      show (s.compressMessage message dst).after.1.ledger.sourceBytes
          + (s.compressMessage message dst).after.1.pendingSize
        = s.ledger.sourceBytes + s.pendingSize + (accepted message (s.write message)).size
      -- Processing keeps the sum, so only the write counts.
      have hwritten : (s.compressMessage message dst).after.1.ledger.sourceBytes
            + (s.compressMessage message dst).after.1.pendingSize
          = (s.write message).after.ledger.sourceBytes
            + (s.write message).after.pendingSize := by
        rcases s.compressMessage_cases message dst with ⟨failure, s', hwrite, hcompress⟩
          | ⟨s', hwrite, hcompress⟩
        · rw [hcompress, hwrite]
          rfl
        · rw [hcompress, hwrite]
          exact hprocess s' dst
      rw [hwritten, hledger, hpending, Nat.add_assoc]

/-- **The ledger is that of the calls that succeeded.** -/
theorem ledger_run (config : WindowConfig) (encoder : ε) (calls : List Call) :
    ((withEncoder config encoder).run calls).1.ledger
      = .ofEntries ((withEncoder config encoder).entries calls) := by
  have hsum := measure_foldl next (fun _ => True) ledger
    (fun s call => .ofEntries (s.recorded? call).toList) (fun _ _ h => h)
    (fun s call _ => s.ledger_next call) calls (s := withEncoder config encoder) trivial
  rw [run_fst, hsum, Ledger.sum_map_toList fun visit : Compressor ε × Call =>
    visit.1.recorded? visit.2]
  exact zero_add _

/-- **What was accepted is pending or recorded.** -/
theorem balance_run (config : WindowConfig) (encoder : ε) (calls : List Call) :
    let s := ((withEncoder config encoder).run calls).1
    s.ledger.sourceBytes + s.pendingSize = (withEncoder config encoder).acceptedBytes calls := by
  have hsum := measure_foldl next (fun _ => True) (fun s => s.ledger.sourceBytes + s.pendingSize)
    (fun s call => (s.serve call).2.accepted.size) (fun _ _ h => h)
    (fun s call _ => s.balance_next call) calls (s := withEncoder config encoder) trivial
  rw [run_fst]
  exact hsum.trans (zero_add _)

end Codec

/-! ### Sending, with LZ4 -/

section Lz4

variable {s : Compressor Lz4Context} {config : WindowConfig} {reach : Nat} {past pending : Bytes}

theorem Follows.exists_next (h : s.Follows config reach past pending) (call : Call) :
    ∃ past' pending', (s.next call).Follows config reach past' pending' := by
  obtain ⟨s', accepted, ⟨hserve, hfollows, -⟩ | ⟨hserve, -, -, hfollows, -⟩⟩ := h.serve_cases call
  · rw [next, hserve]
    exact ⟨_, _, hfollows⟩
  · rw [next, hserve]
    exact ⟨_, _, hfollows⟩

/-- What a successful call appended is the answer that it appends. -/
private theorem appended_eq {o : Outcome Nat (Compressor Lz4Context × Bytes)} {dst : Bytes}
    {answer : Except Failure Bytes} (h : o.Appends dst answer) :
    appended dst o = answer.toOption := by
  rw [appended, h.1, h.2, extract_append_size]
  cases answer <;> rfl

/-- A call that makes a frame is recorded with the length of the message and of the frame. -/
theorem Follows.recorded?_eq (h : s.Follows config reach past pending) (call : Call) :
    s.recorded? call = (s.serve call).2.frame?.map fun frame =>
      ⟨(pending ++ (s.serve call).2.accepted).size, frame.size⟩ := by
  cases call with
  | write src => rfl
  | process dst =>
      have happends := h.process_appends dst
      rw [recorded?, serve, happends.recorded?_eq, appended_eq happends, h.pendingSize_eq,
        Array.append_empty]
  | compressMessage message dst =>
      have happends := h.compressMessage_appends message dst
      rw [recorded?, serve, happends.recorded?_eq, appended_eq happends, h.pendingSize_eq]
      cases hmessage : extended config.maxMessageSize pending message with
      | error failure => rfl
      | ok whole =>
          obtain ⟨-, s', hwrite, -⟩ := h.write_ok hmessage
          rw [hwrite, ← Array.size_append]
          rfl

/-- A call is recorded with as much as its destination grew by. -/
theorem Follows.output_next (h : s.Follows config reach past pending) (call : Call) :
    (s.next call).ledger.outputBytes = s.ledger.outputBytes + s.grown call := by
  have hgrown : (Ledger.ofEntries (s.recorded? call).toList).outputBytes = s.grown call := by
    cases call with
    | write src => rfl
    | process dst => exact (h.process_appends dst).outputBytes_eq _
    | compressMessage message dst => exact (h.compressMessage_appends message dst).outputBytes_eq _
  rw [s.ledger_next call, Ledger.outputBytes_add, hgrown]

/-- **The output is what all the destinations grew by.** -/
theorem output_run (config codec : WindowConfig) (calls : List Call) :
    ((withEncoder config (Lz4Context.ofConfig codec)).run calls).1.ledger.outputBytes
      = (withEncoder config (Lz4Context.ofConfig codec)).grownBytes calls := by
  have hsum := measure_foldl next
    (fun s : Compressor Lz4Context => ∃ past pending,
      s.Follows config.clamped (min codec.dictionarySize maxDistance) past pending)
    (fun s => s.ledger.outputBytes) grown (fun s call ⟨_, _, h⟩ => h.exists_next call)
    (fun s call ⟨_, _, h⟩ => h.output_next call) calls ⟨_, _, withEncoder_follows config codec⟩
  rw [run_fst]
  exact hsum.trans (zero_add _)

end Lz4

end Compressor

/-! ### Receiving -/

namespace Decompressor

section Codec

variable {δ : Type} [Decoder δ]

/-- The session after one call, with what its destination holds and its frame. -/
def next (s : Decompressor δ) (call : Bytes × Bytes) : Decompressor δ :=
  (s.process call.1 call.2).after.1

/-- What a call adds to the ledger. -/
def recorded? (s : Decompressor δ) (call : Bytes × Bytes) : Option Entry :=
  (s.process call.1 call.2).recorded? call.2.size

/-- The calls that succeeded, each with the length of its frame and the length that it returned. -/
def entries (s : Decompressor δ) (calls : List (Bytes × Bytes)) : List Entry :=
  (visits next s calls).filterMap fun visit => visit.1.recorded? visit.2

/-- By how much all the calls made their destinations longer. -/
def grownBytes (s : Decompressor δ) (calls : List (Bytes × Bytes)) : Nat :=
  ((visits next s calls).map fun visit =>
    (visit.1.process visit.2.1 visit.2.2).grown visit.2.1).sum

theorem receive_fst (s : Decompressor δ) (calls : List (Bytes × Bytes)) :
    (s.receive calls).1 = calls.foldl next s :=
  (List.foldl_hom Prod.fst fun _ _ => rfl).symm

/-- **A call adds its entry to the ledger, if it succeeded, and nothing else does.** -/
theorem ledger_next (s : Decompressor δ) (call : Bytes × Bytes) :
    (s.next call).ledger = s.ledger + .ofEntries (s.recorded? call).toList := by
  obtain ⟨dst, frame⟩ := call
  unfold next recorded? process
  by_cases hframe : frame.size = 0
  · rw [if_pos hframe]
    exact (add_zero s.ledger).symm
  · rw [if_neg hframe]
    by_cases hconsistent : (!s.window.isConsistent) = true
    · rw [if_pos hconsistent]
      exact (add_zero s.ledger).symm
    · rw [if_neg hconsistent]
      rcases Decoder.decode s.decoder frame s.window.bytes s.window.cursor
        s.window.messageCapacity with ⟨failure | _ | size, decoder, bytes⟩
      · exact (add_zero s.ledger).symm
      · exact (add_zero s.ledger).symm
      · let decoded : Decompressor δ := { s with decoder, window := { s.window with bytes } }
        show (decoded.commit frame.size (size + 1) dst).after.1.ledger
          = s.ledger + .ofEntries
            ((decoded.commit frame.size (size + 1) dst).recorded? frame.size).toList
        rcases decoded.commit_cases frame.size (size + 1) dst with ⟨failure, dst', hcommit⟩
          | ⟨message, advance, window, -, hcommit⟩
        · rw [hcommit]
          exact (add_zero s.ledger).symm
        · rw [hcommit]
          rfl

/-- **The ledger is that of the calls that succeeded.** -/
theorem ledger_receive (config : WindowConfig) (decoder : δ) (calls : List (Bytes × Bytes)) :
    ((withDecoder config decoder).receive calls).1.ledger
      = .ofEntries ((withDecoder config decoder).entries calls) := by
  have hsum := measure_foldl next (fun _ => True) ledger
    (fun s call => .ofEntries (s.recorded? call).toList) (fun _ _ h => h)
    (fun s call _ => s.ledger_next call) calls (s := withDecoder config decoder) trivial
  rw [receive_fst, hsum, Ledger.sum_map_toList fun visit : Decompressor δ × (Bytes × Bytes) =>
    visit.1.recorded? visit.2]
  exact zero_add _

end Codec

section Lz4

variable {s : Decompressor Lz4Context} {config : WindowConfig} {reach : Nat} {past : Bytes}

/-- A call appends its message and tells its length, or fails and appends nothing. -/
theorem Follows.process_appends (h : s.Follows config reach past) (dst frame : Bytes) :
    (s.process dst frame).Appends dst (messageOf reach config.maxMessageSize past frame) ∧
      ∃ past', (s.process dst frame).after.1.Follows config reach past' := by
  cases hmessage : messageOf reach config.maxMessageSize past frame with
  | ok message =>
      obtain ⟨s', hprocess, hfollows⟩ := h.process_messageOf_ok hmessage dst
      rw [hprocess]
      exact ⟨⟨rfl, rfl⟩, _, hfollows⟩
  | error failure =>
      obtain ⟨s', hprocess, hfollows, -⟩ := h.process_messageOf_error hmessage dst
      rw [hprocess]
      exact ⟨⟨rfl, Array.append_empty.symm⟩, _, hfollows⟩

/-- A call is recorded with as much as its destination grew by. -/
theorem Follows.output_next (h : s.Follows config reach past) (call : Bytes × Bytes) :
    (s.next call).ledger.outputBytes
      = s.ledger.outputBytes + (s.process call.1 call.2).grown call.1 := by
  have hgrown := (h.process_appends call.1 call.2).1.outputBytes_eq call.2.size
  rw [s.ledger_next call, Ledger.outputBytes_add, ← hgrown]
  rfl

/-- **The output is what all the destinations grew by.** -/
theorem output_receive (config codec : WindowConfig) (calls : List (Bytes × Bytes)) :
    ((withDecoder config (Lz4Context.ofConfig codec)).receive calls).1.ledger.outputBytes
      = (withDecoder config (Lz4Context.ofConfig codec)).grownBytes calls := by
  have hsum := measure_foldl next
    (fun s : Decompressor Lz4Context => ∃ past,
      s.Follows config.clamped (min codec.dictionarySize maxDistance) past)
    (fun s => s.ledger.outputBytes)
    (fun s call => (s.process call.1 call.2).grown call.1)
    (fun s call ⟨_, h⟩ => (h.process_appends call.1 call.2).2)
    (fun s call ⟨_, h⟩ => h.output_next call) calls ⟨_, withDecoder_follows config codec⟩
  rw [receive_fst]
  exact hsum.trans (zero_add _)

end Lz4

end Decompressor

/-! ### Both ends of a link -/

/-- The messages and the frames that were written down, as a ledger records them. -/
def Transcript.entries (t : Transcript) : List Entry :=
  List.zipWith (fun message frame => ⟨message.size, frame.size⟩) t.messages t.frames

theorem Transcript.entries_note {t : Transcript} (h : t.messages.length = t.frames.length)
    (reply : Reply) :
    (t.note reply).entries = t.entries ++ (reply.frame?.map fun frame =>
      ⟨(t.pending ++ reply.accepted).size, frame.size⟩).toList := by
  obtain ⟨accepted, frame?⟩ := reply
  cases frame? with
  | none => exact (List.append_nil _).symm
  | some frame => exact List.zipWith_append h

namespace Link

/-- Both ends have recorded the same messages and frames, the receiver those that were taken. -/
structure Balances (l : Link) : Prop where
  sender_eq : l.sender.ledger = .ofEntries l.transcript.entries
  receiver_eq : l.receiver.ledger
    = (Ledger.ofEntries (l.transcript.entries.take l.verdicts.length)).mirrored

variable {l : Link} {config : WindowConfig} {reach : Nat}

theorem withContexts_balances (config codec : WindowConfig) :
    (withContexts config codec).Balances :=
  ⟨rfl, rfl⟩

private theorem Agrees.length_frames (h : l.Agrees config reach) :
    l.transcript.messages.length = l.transcript.frames.length := by
  rw [h.sends.frames_eq, length_framesOf]

private theorem Agrees.length_entries (h : l.Agrees config reach) :
    l.transcript.entries.length = l.transcript.messages.length := by
  rw [Transcript.entries, List.length_zipWith, ← h.length_frames, Nat.min_self]

/-- A frame is recorded by the sender as it is emitted. -/
private theorem Balances.send (h : l.Balances) (hagrees : l.Agrees config reach)
    (call : Compressor.Call) : (l.step (.send call)).Balances := by
  have hentries := Transcript.entries_note hagrees.length_frames (l.sender.serve call).2
  have htaken : l.verdicts.length ≤ l.transcript.entries.length := by
    rw [hagrees.length_entries]
    exact hagrees.length_verdicts_le
  refine ⟨?_, ?_⟩
  · show (l.sender.next call).ledger
      = .ofEntries (l.transcript.note (l.sender.serve call).2).entries
    rw [l.sender.ledger_next, hagrees.sends.follows.recorded?_eq, h.sender_eq,
      ← Ledger.ofEntries_append, hentries]
  · show l.receiver.ledger
      = (Ledger.ofEntries ((l.transcript.note (l.sender.serve call).2).entries.take
          l.verdicts.length)).mirrored
    rw [hentries, List.take_append_of_le_length htaken]
    exact h.receiver_eq

/-- The oldest frame is recorded by the receiver as it is taken, as the sender recorded it. -/
private theorem Balances.take (h : l.Balances) (hagrees : l.Agrees config reach) (dst : Bytes) :
    (l.step (.take dst)).Balances := by
  cases hchannel : l.channel with
  | nil =>
      rw [step_take_nil hchannel]
      exact h
  | cons frame channel =>
      obtain ⟨message, later, hrest, hframe⟩ := hagrees.channel_cons hchannel
      have hmem : message ∈ l.transcript.messages :=
        List.mem_of_mem_drop (hrest ▸ List.mem_cons_self)
      obtain ⟨hpos, hfit⟩ := hagrees.fits message hmem
      obtain ⟨s', hprocess, -, -, hledger⟩ := hagrees.receives.process_delivers
        (size_frameOf_pos _ _) (expandFrame_frameOf _ hfit) hpos dst
      rw [← hframe] at hprocess hledger
      have hentry : l.transcript.entries.drop l.verdicts.length
          = ⟨message.size, frame.size⟩
            :: List.zipWith (fun message frame => ⟨message.size, frame.size⟩) later channel := by
        rw [Transcript.entries, List.drop_zipWith, hrest, ← hagrees.channel_eq, hchannel,
          List.zipWith_cons_cons]
      have htake : l.transcript.entries.take (l.verdicts.length + 1)
          = l.transcript.entries.take l.verdicts.length ++ [⟨message.size, frame.size⟩] := by
        rw [List.take_add_one, ← List.head?_drop, hentry]
        rfl
      have hstep : l.step (.take dst) = { l.received dst (l.receiver.process dst frame) with
          channel
          verdicts := l.verdicts ++ [(l.receiver.process dst frame).verdict] } := by
        rw [step, hchannel]
      rw [hstep]
      refine ⟨h.sender_eq, ?_⟩
      show (l.receiver.process dst frame).after.1.ledger
        = (Ledger.ofEntries (l.transcript.entries.take
            (l.verdicts ++ [(l.receiver.process dst frame).verdict]).length)).mirrored
      rw [hprocess, List.length_append, List.length_singleton, htake, ← Ledger.record_ofEntries]
      show s'.ledger = _
      rw [hledger, h.receiver_eq]
      rfl

/-- A stray string is not recorded. -/
private theorem Balances.stray (h : l.Balances) (hagrees : l.Agrees config reach)
    (frame dst : Bytes) : (l.step (.stray frame dst)).Balances := by
  cases hmessage : messageOf reach config.maxMessageSize (joined l.taken) frame with
  | ok message =>
      obtain ⟨s', hprocess, -⟩ := hagrees.receives.process_messageOf_ok hmessage dst
      rw [step_stray_of_done hprocess]
      exact h
  | error failure =>
      obtain ⟨s', hprocess, -, -, -, hledger⟩ :=
        hagrees.receives.process_messageOf_error hmessage dst
      rw [step_stray_of_refused hprocess]
      exact ⟨h.sender_eq, hledger.trans h.receiver_eq⟩

theorem Balances.run (events : List Event) :
    ∀ {l : Link}, l.Balances → l.Agrees config reach → (l.run events).Balances := by
  induction events with
  | nil => intro l h _; exact h
  | cons event rest ih =>
      intro l h hagrees
      have hstep : (l.step event).Balances := by
        cases event with
        | send call => exact h.send hagrees call
        | take dst => exact h.take hagrees dst
        | stray frame dst => exact h.stray hagrees frame dst
      exact ih hstep (hagrees.step event)

/-- **Once every frame is taken, each end has recorded what the other has**, seen from its side. -/
theorem ledgers_mirror (config codec : WindowConfig) (events : List Event) :
    let l := (withContexts config codec).run events
    l.channel = [] → l.receiver.ledger = l.sender.ledger.mirrored := by
  intro l hchannel
  have hagrees := Agrees.run events (withContexts_agrees config codec)
  have hbalances := Balances.run events (withContexts_balances config codec)
    (withContexts_agrees config codec)
  have hall : l.transcript.entries.length ≤ l.verdicts.length := by
    have hframes := hagrees.channel_eq.symm.trans hchannel
    rw [hagrees.length_entries, hagrees.length_frames]
    exact List.drop_eq_nil_iff.mp hframes
  rw [hbalances.receiver_eq, List.take_of_length_le hall, hbalances.sender_eq]

end Link

/-! ### Any sessions -/

/-- A run of a session of either kind, over any codec. -/
inductive SessionRun : Type 1 where
  | sending {ε : Type} [Encoder ε] (config : WindowConfig) (encoder : ε)
      (calls : List Compressor.Call)
  | receiving {δ : Type} [Decoder δ] (config : WindowConfig) (decoder : δ)
      (calls : List (Bytes × Bytes))

namespace SessionRun

/-- What the session has recorded in the end. -/
def ledger : SessionRun → Ledger
  | sending config encoder calls =>
    ((Compressor.withEncoder config encoder).run calls).1.ledger
  | receiving config decoder calls =>
    ((Decompressor.withDecoder config decoder).receive calls).1.ledger

/-- The calls that succeeded. -/
def entries : SessionRun → List Entry
  | sending config encoder calls => (Compressor.withEncoder config encoder).entries calls
  | receiving config decoder calls => (Decompressor.withDecoder config decoder).entries calls

theorem ledger_eq (run : SessionRun) : run.ledger = .ofEntries run.entries := by
  cases run with
  | sending config encoder calls => exact Compressor.ledger_run config encoder calls
  | receiving config decoder calls => exact Decompressor.ledger_receive config decoder calls

/-- **The ledgers of sessions add up to the ledger of all their calls.** -/
theorem total_merging {merging : Merging} {runs : List SessionRun}
    (h : merging.leaves.Perm (runs.map ledger)) :
    merging.total = .ofEntries (runs.flatMap entries) := by
  have hledgers : runs.map ledger = (runs.map entries).map Ledger.ofEntries := by
    rw [List.map_map]
    exact List.map_congr_left fun run _ => run.ledger_eq
  rw [hledgers] at h
  rw [Merging.total_eq h, List.flatMap_def]

end SessionRun

/--
**Ledgers are exact.**

A session of either kind, over any codec and after any calls, has recorded the calls that
returned a length, each with its source and that length, and nothing else.  What a
sending session has recorded as its source and what is pending are together the bytes of
the writes that were accepted.  With LZ4 the output is what all the destinations grew by,
failed calls included.  Once every frame of a link was taken, the two ends have recorded
the same with the sides changed over.  And however the ledgers of sessions are brought
together, the total is the ledger of all their calls.

The numbers are exact here; in words they are as long as the totals are words.
-/
theorem ledger_exact (config codec : WindowConfig) :
    (∀ run : SessionRun, run.ledger = .ofEntries run.entries) ∧
    (∀ {ε : Type} [Encoder ε] (encoder : ε) (calls : List Compressor.Call),
      let s := ((Compressor.withEncoder config encoder).run calls).1
      s.ledger.sourceBytes + s.pendingSize
        = (Compressor.withEncoder config encoder).acceptedBytes calls) ∧
    (∀ calls : List Compressor.Call,
      let s := Compressor.withEncoder config (Lz4Context.ofConfig codec)
      (s.run calls).1.ledger.outputBytes = s.grownBytes calls) ∧
    (∀ calls : List (Bytes × Bytes),
      let s := Decompressor.withDecoder config (Lz4Context.ofConfig codec)
      (s.receive calls).1.ledger.outputBytes = s.grownBytes calls) ∧
    (∀ events : List Link.Event,
      let l := (Link.withContexts config codec).run events
      l.channel = [] → l.receiver.ledger = l.sender.ledger.mirrored) ∧
    ∀ (runs : List SessionRun) (merging : Merging),
      merging.leaves.Perm (runs.map SessionRun.ledger) →
      merging.total = .ofEntries (runs.flatMap SessionRun.entries) :=
  ⟨SessionRun.ledger_eq, Compressor.balance_run config, Compressor.output_run config codec,
    Decompressor.output_receive config codec, Link.ledgers_mirror config codec,
    fun _ _ => SessionRun.total_merging⟩

/-- One message goes over a link, with a call that fails on either side, and ledgers of both
sides are added up in the other order. -/
theorem ledger_exact_link :
    let events : List Link.Event :=
      [.send (.process #[]), .send (.compressMessage #[1, 2, 3] #[]), .stray #[] #[8], .take #[9]]
    let l := (Link.withContexts ⟨0, 0⟩ ⟨0, 0⟩).run events
    let sent : SessionRun := .sending ⟨0, 0⟩ (Lz4Context.ofConfig ⟨0, 0⟩)
      [.process #[], .compressMessage #[1, 2, 3] #[]]
    let received : SessionRun := .receiving ⟨0, 0⟩ (Lz4Context.ofConfig ⟨0, 0⟩)
      [(#[8], #[]), (#[9], #[0x30, 1, 2, 3])]
    let merging : Merging := .add (.merge .blank (.of received.ledger)) (.of sent.ledger)
    (l.channel = [] ∧ l.sender.ledger = ⟨1, 3, 4⟩ ∧
      l.receiver.ledger = l.sender.ledger.mirrored) ∧
    merging.leaves.Perm [sent.ledger, received.ledger] ∧
      merging.total = .ofEntries (sent.entries ++ received.entries) := by
  intro events l sent received merging
  obtain ⟨-, -, -, -, hmirror, htotal⟩ := ledger_exact ⟨0, 0⟩ ⟨0, 0⟩
  have hchannel : l.channel = [] := by decide +kernel
  have hsent : l.sender.ledger = ⟨1, 3, 4⟩ := by decide +kernel
  have hleaves : merging.leaves.Perm [sent.ledger, received.ledger] := .swap _ _ _
  have hsum := htotal [sent, received] merging hleaves
  rw [List.flatMap_cons, List.flatMap_cons, List.flatMap_nil, List.append_nil] at hsum
  exact ⟨⟨hchannel, hsent, hmirror events hchannel⟩, hleaves, hsum⟩

end WindowedLz4
