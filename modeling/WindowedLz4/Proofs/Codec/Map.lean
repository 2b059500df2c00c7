/-
Receiving sessions over one codec, seen as sessions over another.

A session hands the context of its decoder on from call to call and never looks into
it.  So a map of contexts under which calls end alike (`DecoderHom`) carries whole
sessions over: it makes no difference whether a frame is processed first or the session
is mapped first (`process_map`), nor for all the calls of a run (`receive_map`).

Taking the log off a decoder that keeps one is such a map, which is why a session
cannot be told from the same session with a log.
-/
import WindowedLz4.Proofs.Session.Messages
namespace WindowedLz4

/-- A map of contexts under which the calls of one decoder end as those of another. -/
structure DecoderHom (κ δ : Type) [Decoder κ] [Decoder δ] where
  toFun : κ → δ
  decode_eq : ∀ {n : Nat} (context : κ) (frame : Bytes) (window : Vector UInt8 n)
      (start capacity : Nat),
    Decoder.decode (toFun context) frame window start capacity
      = (Decoder.decode context frame window start capacity).mapAfter
          fun after => (toFun after.1, after.2)
  retire_eq : ∀ (context : κ) (window : Bytes),
    Decoder.retire (toFun context) window = toFun (Decoder.retire context window)

namespace Decompressor

variable {κ δ : Type}

/-- The session with another context in the place of its own. -/
def map (f : κ → δ) (s : Decompressor κ) : Decompressor δ :=
  { s with decoder := f s.decoder }

variable [Decoder κ] [Decoder δ] (f : DecoderHom κ δ)

theorem commit_map (s : Decompressor κ) (frameSize size : Nat) (dst : Bytes) :
    (s.map f.toFun).commit frameSize size dst
      = (s.commit frameSize size dst).mapAfter fun after => (after.1.map f.toFun, after.2) := by
  obtain ⟨config, decoder, window, ledger⟩ := s
  simp only [commit, map]
  rcases window.message size with failure | message
  · rfl
  · rcases window.advance size with failure | ⟨advance, window'⟩
    · rfl
    · cases advance with
      | continued => rfl
      | rolledOver retired => simp only [f.retire_eq]; rfl

/-- **A session that is mapped answers as it did.** -/
theorem process_map (s : Decompressor κ) (dst frame : Bytes) :
    (s.map f.toFun).process dst frame
      = (s.process dst frame).mapAfter fun after => (after.1.map f.toFun, after.2) := by
  obtain ⟨config, decoder, window, ledger⟩ := s
  simp only [process, map, f.decode_eq]
  rcases Decoder.decode decoder frame window.bytes window.cursor window.messageCapacity with
    ⟨verdict, decoder', bytes⟩
  split
  · rfl
  · split
    · rfl
    · rcases verdict with failure | _ | size
      · rfl
      · rfl
      · exact commit_map f ⟨config, decoder', { window with bytes }, ledger⟩ frame.size
          (size + 1) dst

theorem receive_map (s : Decompressor κ) (calls : List (Bytes × Bytes)) :
    (s.map f.toFun).receive calls
      = ((s.receive calls).1.map f.toFun, (s.receive calls).2) := by
  have hfold : ∀ (calls : List (Bytes × Bytes)) (state : Decompressor κ × Bytes),
      calls.foldl receiveOne (state.1.map f.toFun, state.2)
        = ((calls.foldl receiveOne state).1.map f.toFun, (calls.foldl receiveOne state).2) := by
    intro calls
    induction calls with
    | nil => intro state; rfl
    | cons call rest ih =>
        intro state
        have hone : receiveOne (state.1.map f.toFun, state.2) call
            = ((receiveOne state call).1.map f.toFun, (receiveOne state call).2) := by
          unfold receiveOne
          rw [process_map]
          rfl
        rw [List.foldl_cons, List.foldl_cons, hone]
        exact ih (receiveOne state call)
  exact hfold calls (s, #[])

end Decompressor

end WindowedLz4
