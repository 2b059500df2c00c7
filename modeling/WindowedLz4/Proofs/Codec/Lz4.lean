/-
LZ4 contexts on their own, without a session.

Of the calls that a context serves only the retiring of a window changes what it
recalls: encoding and decoding leave nothing behind but a scratch buffer, however
they end.  After any calls a context recalls the end of all the bytes it was given to
retire, and it cannot be told from them how they were cut into windows
(`Recalls.run`).  The dictionary of a message is then the end of those bytes and of the
window before the message.

So two contexts that were given the same bytes have dictionaries that end alike, and
the one that reaches farther back has more in front.  That changes nothing of the
meaning of a frame, which is why what the one encodes the other decodes
(`encode_decode`).
-/
import WindowedLz4.Codec.Lz4
import WindowedLz4.Proofs.Block.RoundTrip
import WindowedLz4.Proofs.History
namespace WindowedLz4

namespace Lz4Context

/-! ### One call -/

/-- A message that starts inside its window is always encoded. -/
theorem encode_eq (c : Lz4Context) {window : Bytes} {start : Nat} (h : start ≤ window.size)
    (dst : Bytes) :
    c.encode window start dst
      = .done (frameOf (c.history.dictionary (window.extract 0 start)).1
            (window.extract start window.size)).size
          (⟨(c.history.dictionary (window.extract 0 start)).2⟩,
            dst ++ frameOf (c.history.dictionary (window.extract 0 start)).1
              (window.extract start window.size)) := by
  unfold encode
  rw [if_neg (Nat.not_lt.mpr h)]
  simp only [appendFrame_eq]
  rfl

/-- A region that lies inside its window is written with what the frame stands for, whole or
not. -/
theorem decode_eq (c : Lz4Context) (frame : Bytes) {n start capacity : Nat}
    (window : Vector UInt8 n) (h : start + capacity ≤ n) :
    c.decode frame window start capacity
      = match expandFrame (c.history.dictionary (window.toArray.extract 0 start)).1 capacity
            frame with
        | .ok plain =>
          .done plain.size (⟨(c.history.dictionary (window.toArray.extract 0 start)).2⟩,
            overwrite window start plain.toList)
        | .error plain =>
          .refused .malformed (⟨(c.history.dictionary (window.toArray.extract 0 start)).2⟩,
            overwrite window start plain.toList) := by
  unfold decode
  exact if_neg (Nat.not_lt.mpr h)

/-! ### What a call leaves -/

/-- The contexts differ in their scratch buffers at most. -/
structure Alike (c c' : Lz4Context) : Prop where
  limit_eq : c.history.limit = c'.history.limit
  tail_eq : c.history.tail = c'.history.tail

namespace Alike

variable {c c' c'' : Lz4Context}

theorem refl (c : Lz4Context) : c.Alike c := ⟨rfl, rfl⟩

theorem symm (h : c.Alike c') : c'.Alike c := ⟨h.limit_eq.symm, h.tail_eq.symm⟩

theorem trans (h : c.Alike c') (h' : c'.Alike c'') : c.Alike c'' :=
  ⟨h.limit_eq.trans h'.limit_eq, h.tail_eq.trans h'.tail_eq⟩

end Alike

/-- Putting a dictionary together leaves all but the scratch buffer. -/
theorem alike_dictionary (c : Lz4Context) (before : Bytes) :
    Alike ⟨(c.history.dictionary before).2⟩ c :=
  ⟨History.limit_dictionary c.history before, History.tail_dictionary c.history before⟩

/-- So does encoding, however it ends. -/
theorem alike_encode (c : Lz4Context) (window : Bytes) (start : Nat) (dst : Bytes) :
    (c.encode window start dst).after.1.Alike c := by
  by_cases hstart : start ≤ window.size
  · rw [encode_eq c hstart]
    exact c.alike_dictionary _
  · rw [encode, if_pos (Nat.lt_of_not_le hstart)]
    exact .refl c

/-- So does decoding, however it ends. -/
theorem alike_decode (c : Lz4Context) (frame : Bytes) {n : Nat} (window : Vector UInt8 n)
    (start capacity : Nat) : (c.decode frame window start capacity).after.1.Alike c := by
  by_cases hregion : start + capacity ≤ n
  · rw [decode_eq c frame window hregion]
    split
    · exact c.alike_dictionary _
    · exact c.alike_dictionary _
  · rw [decode, if_pos (Nat.lt_of_not_le hregion)]
    exact .refl c

/-! ### Calls -/

/-- A call on a context.  The two sides of a stream have the third in common. -/
inductive Call where
  | encode (window : Bytes) (start : Nat) (dst : Bytes)
  | decode (frame window : Bytes) (start capacity : Nat)
  | retire (window : Bytes)
  deriving DecidableEq, Repr, Inhabited

/-- The bytes that a call gives to retire. -/
def Call.retired : Call → Bytes
  | .encode _ _ _ => #[]
  | .decode _ _ _ _ => #[]
  | .retire window => window

/-- The context after a call, however the call ends. -/
def serve (c : Lz4Context) : Call → Lz4Context
  | .encode window start dst => (c.encode window start dst).after.1
  | .decode frame window start capacity => (c.decode frame window.toVector start capacity).after.1
  | .retire window => c.retire window

/-! ### What a context recalls -/

/-- The context reaches back `reach` bytes, and keeps the end of `gone`. -/
structure Recalls (c : Lz4Context) (reach : Nat) (gone : Bytes) : Prop where
  reach_eq : c.history.limit = reach
  recalls : c.history.Recalls gone

theorem ofConfig_recalls (config : WindowConfig) :
    (ofConfig config).Recalls (min config.dictionarySize maxDistance) #[] :=
  ⟨rfl, History.recalls_ofDictionarySize config.dictionarySize⟩

variable {c : Lz4Context} {reach : Nat} {gone : Bytes}

/-- The scratch buffer has no part in what is recalled. -/
theorem Alike.recalls {c' : Lz4Context} (h : c'.Alike c) (hrecalls : c.Recalls reach gone) :
    c'.Recalls reach gone := by
  refine ⟨h.limit_eq.trans hrecalls.reach_eq, ?_⟩
  show c'.history.tail = lastBytes c'.history.limit gone
  rw [h.limit_eq, h.tail_eq]
  exact hrecalls.recalls

theorem Recalls.dictionary_eq (h : c.Recalls reach gone) (before : Bytes) :
    (c.history.dictionary before).1 = lastBytes reach (gone ++ before) := by
  rw [h.recalls.dictionary_eq, h.reach_eq]

/-- **A call adds what it gives to retire, and nothing else.** -/
theorem Recalls.serve (h : c.Recalls reach gone) (call : Call) :
    (c.serve call).Recalls reach (gone ++ call.retired) := by
  cases call with
  | retire window =>
      exact ⟨(History.limit_retire c.history window).trans h.reach_eq, h.recalls.retire window⟩
  | encode window start dst =>
      rw [Call.retired, Array.append_empty]
      exact (c.alike_encode window start dst).recalls h
  | decode frame window start capacity =>
      rw [Call.retired, Array.append_empty]
      exact (c.alike_decode frame window.toVector start capacity).recalls h

/-- The context after some calls. -/
def run (c : Lz4Context) (calls : List Call) : Lz4Context :=
  calls.foldl serve c

/-- The bytes that some calls give to retire. -/
def retiredBy (calls : List Call) : Bytes :=
  joined (calls.map Call.retired)

theorem Recalls.run (calls : List Call) :
    ∀ {c : Lz4Context} {gone : Bytes}, c.Recalls reach gone →
      (c.run calls).Recalls reach (gone ++ retiredBy calls) := by
  induction calls with
  | nil =>
      intro c gone h
      rw [retiredBy, List.map_nil, joined, Array.append_empty]
      exact h
  | cons call rest ih =>
      intro c gone h
      rw [retiredBy, List.map_cons, joined, ← Array.append_assoc]
      exact ih (h.serve call)

/-! ### From one context to another -/

theorem Recalls.encode_eq (h : c.Recalls reach gone) {window : Bytes} {start : Nat}
    (hstart : start ≤ window.size) (dst : Bytes) :
    ∃ c', c.encode window start dst
      = .done (frameOf (lastBytes reach (gone ++ window.extract 0 start))
            (window.extract start window.size)).size
          (c', dst ++ frameOf (lastBytes reach (gone ++ window.extract 0 start))
            (window.extract start window.size)) := by
  rw [Lz4Context.encode_eq c hstart, h.dictionary_eq]
  exact ⟨_, rfl⟩

theorem Recalls.decode_eq (h : c.Recalls reach gone) {frame plain : Bytes} {n start capacity : Nat}
    (window : Vector UInt8 n) (hregion : start + capacity ≤ n)
    (hplain : expandFrame (lastBytes reach (gone ++ window.toArray.extract 0 start)) capacity frame
      = .ok plain) :
    ∃ c', c.decode frame window start capacity
      = .done plain.size (c', overwrite window start plain.toList) := by
  rw [Lz4Context.decode_eq c frame window hregion, h.dictionary_eq, hplain]
  exact ⟨_, rfl⟩

/--
**What one context encodes another decodes, if it reaches at least as far back.**

The two may have served any calls before, as long as the bytes they were given to retire
are the same when put together.  Encoding the part of a window from `start` on then
succeeds and appends a frame, and decoding that frame into any region of another window
with the same bytes before it, which has room for the message, writes the message there.
The message may be empty.
-/
theorem encode_decode (config config' : WindowConfig)
    (hreach : min config.dictionarySize maxDistance ≤ min config'.dictionarySize maxDistance)
    (sent received : List Call) (hretired : retiredBy sent = retiredBy received)
    {window : Bytes} {start : Nat} (hstart : start ≤ window.size) (dst : Bytes) :
    ∃ (c : Lz4Context) (frame : Bytes), 0 < frame.size ∧
      ((ofConfig config).run sent).encode window start dst
        = .done frame.size (c, dst ++ frame) ∧
      ∀ {n : Nat} (window' : Vector UInt8 n) (capacity : Nat),
        window'.toArray.extract 0 start = window.extract 0 start →
        window.size - start ≤ capacity → start + capacity ≤ n →
        ∃ (c' : Lz4Context) (written : Vector UInt8 n),
          ((ofConfig config').run received).decode frame window' start capacity
            = .done (window.size - start) (c', written) ∧
          written.toArray.extract start window.size = window.extract start window.size := by
  have henc := (ofConfig_recalls config).run sent
  have hdec := (ofConfig_recalls config').run received
  rw [Array.empty_append] at henc hdec
  rw [← hretired] at hdec
  obtain ⟨c, hencode⟩ := henc.encode_eq hstart dst
  refine ⟨c, _, size_frameOf_pos _ _, hencode, ?_⟩
  intro n window' capacity hbefore hroom hregion
  have hsize : (window.extract start window.size).size = window.size - start := by
    rw [Array.size_extract, Nat.min_self]
  -- The frame decodes in the room it takes, and so in more, behind the dictionary it was made
  -- for, and so behind a longer one.
  have hplain := expandFrame_mono hreach (hsize ▸ hroom)
    (expandFrame_frameOf
      (lastBytes (min config.dictionarySize maxDistance) (retiredBy sent ++ window.extract 0 start))
      (Nat.le_refl (window.extract start window.size).size))
  rw [← hbefore] at hplain
  obtain ⟨c', hdecode⟩ := hdec.decode_eq window' hregion hplain
  rw [hsize, hbefore] at hdecode
  refine ⟨c', _, hdecode, ?_⟩
  have hfits : start + (window.extract start window.size).size ≤ n := by
    rw [hsize]
    omega
  have hwritten := extract_overwrite window' _ hfits
  rwa [hsize, show start + (window.size - start) = window.size by omega] at hwritten

/-- Behind three retired bytes, which the two contexts were given in different pieces, a message
of four goes from a context that reaches back two bytes to one that reaches back as far as any. -/
theorem encode_decode_pieces :
    let sent : List Call := [.retire #[1, 2], .encode #[7] 2 #[], .retire #[3]]
    let received : List Call := [.decode #[0xF0] #[0, 0] 0 2, .retire #[], .retire #[1, 2, 3]]
    let window : Bytes := #[9, 1, 2, 3, 1]
    (min 2 maxDistance ≤ min maxWord maxDistance ∧ retiredBy sent = retiredBy received ∧
      1 ≤ window.size) ∧
    ∃ (c c' : Lz4Context) (frame : Bytes) (written : Vector UInt8 6),
      ((ofConfig ⟨2, 0⟩).run sent).encode window 1 #[8] = .done frame.size (c, #[8] ++ frame) ∧
      ((ofConfig ⟨maxWord, 0⟩).run received).decode frame #v[9, 0, 0, 0, 0, 0] 1 5
        = .done 4 (c', written) ∧
      written.toArray.extract 1 5 = #[1, 2, 3, 1] := by
  intro sent received window
  have hreach : min 2 maxDistance ≤ min maxWord maxDistance := by decide
  have hretired : retiredBy sent = retiredBy received := by decide
  have hstart : 1 ≤ window.size := by decide
  obtain ⟨c, frame, -, hencode, hdecodes⟩ :=
    encode_decode ⟨2, 0⟩ ⟨maxWord, 0⟩ hreach sent received hretired hstart #[8]
  obtain ⟨c', written, hdecode, hwritten⟩ :=
    hdecodes #v[9, 0, 0, 0, 0, 0] 5 (by decide) (by decide) (by decide)
  exact ⟨⟨hreach, hretired, hstart⟩, c, c', frame, written, hencode, hdecode, hwritten⟩

end Lz4Context

end WindowedLz4
