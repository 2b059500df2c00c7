/-
Decoding keeps to its region.

Whatever a frame holds, a call to decode writes one byte string, from the start of the
region on and no longer than the region (`decode_eq_overwrite`).  That byte string and the
verdict depend on the frame, on the context and on the window before the region alone.  So
a hostile frame cannot reach the rest of the window, and it cannot bring to light what the
region held before.

What a call leaves in the context is its scratch buffer (`alike_decode`), and no call looks
at that (`Alike.answers`).  So no later call can tell whether it was made.
-/
import WindowedLz4.Proofs.Codec.Lz4
namespace WindowedLz4

namespace Lz4Context

/-! ### Later calls -/

/-- What a call shows to its caller, if it shows anything: how it ends, and the bytes that it
worked on. -/
def answer (c : Lz4Context) : Call → Option (Except Failure Nat × Bytes)
  | .encode window start dst =>
    let o := c.encode window start dst
    some (o.verdict, o.after.2)
  | .decode frame window start capacity =>
    let o := c.decode frame window.toVector start capacity
    some (o.verdict, o.after.2.toArray)
  | .retire _ => none

/-- What some calls show, one after another. -/
def answers (c : Lz4Context) : List Call → List (Option (Except Failure Nat × Bytes))
  | [] => []
  | call :: rest => c.answer call :: (c.serve call).answers rest

namespace Alike

variable {c c' : Lz4Context}

theorem dictionary_eq (h : c.Alike c') (before : Bytes) :
    (c.history.dictionary before).1 = (c'.history.dictionary before).1 := by
  rw [History.dictionary_eq, History.dictionary_eq, h.limit_eq, h.tail_eq]

theorem answer (h : c.Alike c') (call : Call) : c.answer call = c'.answer call := by
  cases call with
  | retire window => rfl
  | encode window start dst =>
      simp only [Lz4Context.answer]
      by_cases hstart : start ≤ window.size
      · rw [encode_eq c hstart, encode_eq c' hstart, h.dictionary_eq]
        rfl
      · rw [Lz4Context.encode, Lz4Context.encode, if_pos (Nat.lt_of_not_le hstart),
          if_pos (Nat.lt_of_not_le hstart)]
        rfl
  | decode frame window start capacity =>
      simp only [Lz4Context.answer]
      by_cases hregion : start + capacity ≤ window.size
      · rw [decode_eq c frame _ hregion, decode_eq c' frame _ hregion, h.dictionary_eq]
        split <;> rfl
      · rw [Lz4Context.decode, Lz4Context.decode, if_pos (Nat.lt_of_not_le hregion),
          if_pos (Nat.lt_of_not_le hregion)]
        rfl

theorem serve (h : c.Alike c') (call : Call) : (c.serve call).Alike (c'.serve call) := by
  cases call with
  | retire window =>
      refine ⟨?_, ?_⟩
      · show (c.history.retire window).limit = (c'.history.retire window).limit
        rw [History.limit_retire, History.limit_retire, h.limit_eq]
      · show (c.history.retire window).tail = (c'.history.retire window).tail
        rw [History.tail_retire, History.tail_retire, h.limit_eq, h.tail_eq]
  | encode window start dst =>
      exact ((c.alike_encode window start dst).trans h).trans
        (c'.alike_encode window start dst).symm
  | decode frame window start capacity =>
      exact ((c.alike_decode frame window.toVector start capacity).trans h).trans
        (c'.alike_decode frame window.toVector start capacity).symm

/-- **Contexts that differ in their scratch buffers answer all calls alike.** -/
theorem answers (calls : List Call) :
    ∀ {c c' : Lz4Context}, c.Alike c' → c.answers calls = c'.answers calls := by
  induction calls with
  | nil => intro c c' _; rfl
  | cons call rest ih =>
      intro c c' h
      rw [Lz4Context.answers, Lz4Context.answers, h.answer call, ih (h.serve call)]

end Alike

/-! ### One call -/

/-- **A call writes one byte string into its region**, which like the verdict depends on what stands
before the region and not on what stands in it or behind it. -/
theorem decode_eq_overwrite (c : Lz4Context) (frame before : Bytes) (start capacity : Nat) :
    ∃ (verdict : Except Failure Nat) (c' : Lz4Context) (plain : Bytes), plain.size ≤ capacity ∧
      (verdict = .ok plain.size ∨ verdict = .error .malformed) ∧
      ∀ {n : Nat} (window : Vector UInt8 n), start + capacity ≤ n →
        window.toArray.extract 0 start = before →
        c.decode frame window start capacity
          = ⟨verdict, c', overwrite window start plain.toList⟩ := by
  cases hexpand : expandFrame (c.history.dictionary before).1 capacity frame with
  | ok plain =>
      refine ⟨.ok plain.size, ⟨(c.history.dictionary before).2⟩, plain,
        size_le_of_expandFrame hexpand, .inl rfl, ?_⟩
      intro n window hregion hbefore
      rw [decode_eq c frame window hregion, hbefore, hexpand]
      rfl
  | error plain =>
      refine ⟨.error .malformed, ⟨(c.history.dictionary before).2⟩, plain,
        size_le_of_expandFrame_error hexpand, .inr rfl, ?_⟩
      intro n window hregion hbefore
      rw [decode_eq c frame window hregion, hbefore, hexpand]
      rfl

/-- **What a call to decode does to a region inside the window**, and to nothing else. -/
structure Confined (c : Lz4Context) (frame : Bytes) {n : Nat} (window : Vector UInt8 n)
    (start capacity : Nat) : Prop where
  /-- The plaintext fits the region, or the frame is malformed. -/
  verdict : (∃ size, size ≤ capacity ∧
      (c.decode frame window start capacity).verdict = .ok size) ∨
    (c.decode frame window start capacity).verdict = .error .malformed
  /-- The bytes before the region and behind it stay, also if the frame is malformed. -/
  outside : ∀ (i : Nat) (hi : i < n), i < start ∨ start + capacity ≤ i →
    (c.decode frame window start capacity).after.2[i] = window[i]
  /-- Another window with the same bytes before the region gives the same verdict and the same
  plaintext. -/
  same : ∀ {m : Nat} (window' : Vector UInt8 m), start + capacity ≤ m →
    window'.toArray.extract 0 start = window.toArray.extract 0 start →
    (c.decode frame window' start capacity).verdict
        = (c.decode frame window start capacity).verdict ∧
      ∀ size, (c.decode frame window start capacity).verdict = .ok size →
        (c.decode frame window' start capacity).after.2.toArray.extract start (start + size)
          = (c.decode frame window start capacity).after.2.toArray.extract start (start + size)

theorem confined (c : Lz4Context) (frame : Bytes) {n start capacity : Nat}
    (window : Vector UInt8 n) (hregion : start + capacity ≤ n) :
    c.Confined frame window start capacity := by
  obtain ⟨verdict, c', plain, hplain, hverdict, hdecode⟩ :=
    c.decode_eq_overwrite frame (window.toArray.extract 0 start) start capacity
  have hhere := hdecode window hregion rfl
  refine ⟨?_, ?_, ?_⟩
  · rw [hhere]
    rcases hverdict with rfl | rfl
    · exact .inl ⟨plain.size, hplain, rfl⟩
    · exact .inr rfl
  · intro i hi houtside
    simp only [hhere]
    rcases houtside with hbefore | hbehind
    · exact getElem_overwrite_of_lt window start _ hi hbefore
    · exact getElem_overwrite_of_le window start _ hi (by rw [Array.length_toList]; omega)
  · intro m window' hregion' hbefore
    have hthere := hdecode window' hregion' hbefore
    rw [hthere, hhere]
    refine ⟨rfl, fun size hsize => ?_⟩
    obtain rfl : plain.size = size := by
      rcases hverdict with rfl | rfl
      · exact Except.ok.inj hsize
      · simp at hsize
    rw [extract_overwrite window' plain (by omega), extract_overwrite window plain (by omega)]

/--
**A call to decode is confined to its region, and leaves no trace in the context.**

A region that is not inside the window is refused, and the window stays as it is.  In a
region inside the window the call does what `Confined` says.  In either case all calls that
follow show what they would have shown without it.
-/
theorem decode_confined (c : Lz4Context) (frame : Bytes) {n : Nat} (window : Vector UInt8 n)
    (start capacity : Nat) :
    (n < start + capacity →
      c.decode frame window start capacity = .refused .regionBeyondWindow (c, window)) ∧
    (start + capacity ≤ n → c.Confined frame window start capacity) ∧
    ∀ calls, (c.decode frame window start capacity).after.1.answers calls = c.answers calls := by
  refine ⟨?_, c.confined frame window, ?_⟩
  · intro hbeyond
    rw [decode, if_pos hbeyond]
  · intro calls
    exact (c.alike_decode frame window start capacity).answers calls

/-- A frame that copies a retired byte and the two bytes before its region decodes alike whatever
the region held, and leaves the byte behind it.  A region that begins in the window and ends
behind it is refused. -/
theorem decode_confined_copy :
    let c := (ofConfig ⟨16, 0⟩).run [.retire #[7]]
    let frame : Bytes := #[0, 3, 0, 0]
    let window : Vector UInt8 7 := #v[1, 2, 0, 0, 0, 0, 9]
    (7 < 5 + 4 ∧ 2 + 4 ≤ 7) ∧
    c.decode frame window 5 4 = .refused .regionBeyondWindow (c, window) ∧
    (c.decode frame window 2 4).after.2[6] = 9 ∧
    (c.decode frame #v[1, 2, 8, 8, 8, 8] 2 4).verdict = .ok 4 ∧
    (c.decode frame #v[1, 2, 8, 8, 8, 8] 2 4).after.2.toArray.extract 2 6 = #[7, 1, 2, 7] ∧
    (c.decode frame window 2 4).after.1.answers [.decode frame #[1, 2, 5, 5] 2 4]
      = c.answers [.decode frame #[1, 2, 5, 5] 2 4] := by
  intro c frame window
  have hbeyond : 7 < 5 + 4 := by decide
  have hregion : 2 + 4 ≤ 7 := by decide
  have hplain : expandFrame (c.history.dictionary (window.toArray.extract 0 2)).1 4 frame
      = .ok #[7, 1, 2, 7] := expandFrame_eq_ok_iff.mpr ⟨by decide +kernel, by decide⟩
  have hdecode : c.decode frame window 2 4
      = .done 4 (⟨(c.history.dictionary (window.toArray.extract 0 2)).2⟩,
          overwrite window 2 [7, 1, 2, 7]) := by
    rw [c.decode_eq frame window hregion, hplain]
    rfl
  obtain ⟨hrefused, -, -⟩ := c.decode_confined frame window 5 4
  obtain ⟨-, hconfined, hanswers⟩ := c.decode_confined frame window 2 4
  have hkept := (hconfined hregion).outside 6 (by decide) (.inr (by decide))
  obtain ⟨hverdict, hsame⟩ := (hconfined hregion).same #v[1, 2, 8, 8, 8, 8] (by decide) rfl
  have hwritten := hsame 4 (by rw [hdecode]; rfl)
  rw [hdecode] at hverdict hwritten
  exact ⟨⟨hbeyond, hregion⟩, hrefused hbeyond, hkept, hverdict, hwritten, hanswers _⟩

end Lz4Context

end WindowedLz4
