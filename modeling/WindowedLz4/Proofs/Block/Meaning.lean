/-
What a frame stands for, whatever the room.

`Reading.expand` stops at the first step that does not fit the room.  Without a
room the same steps only ever stop at a copy from before the start of the text,
and that is the meaning of a frame: `frameText?`.  The room then does nothing but
compare (`expandFrame_eq_ok_iff`): a frame decodes exactly if it has a meaning,
and the meaning is no longer than the room.  What a frame that does not decode
leaves fits the room as well (`size_le_of_expandFrame_error`).

The meaning only looks back from the end of the text.  More text in front of the
dictionary therefore changes nothing of a frame that has one already
(`frameText?_append`), and neither does more room (`expandFrame_mono`).
-/
import WindowedLz4.Block.Expand
import WindowedLz4.Proofs.Bytes
namespace WindowedLz4

/-- The text after a sequence, unless its copy reaches back past the start. -/
def Sequence.extend? (text : Bytes) (s : Sequence) : Option Bytes :=
  if s.offset ≤ text.size + s.literals.length then
    some (copyBack s.offset s.length (text ++ s.literals))
  else none

/-- The text after a block, unless a copy reaches back past the start or the block
is not whole. -/
def Reading.extend? (text : Bytes) (r : Reading) : Option Bytes := do
  let text ← r.sequences.foldlM Sequence.extend? text
  r.tail.map fun literals : List UInt8 => text ++ literals

/-- The plaintext of `frame` with `dictionary` before it. -/
def frameText? (dictionary frame : Bytes) : Option Bytes :=
  ((Reading.ofBytes frame.toList).extend? dictionary).map fun text =>
    text.extract dictionary.size text.size

/-! ### Steps within a bound -/

theorem bind_eq_ok_iff {ε α β : Type} {x : Except ε α} {f : α → Except ε β} {b : β} :
    x >>= f = .ok b ↔ ∃ a, x = .ok a ∧ f a = .ok b := by
  rcases x with e | a <;> simp [bind, Except.bind]

theorem bind_eq_error_iff {ε α β : Type} {x : Except ε α} {f : α → Except ε β} {e : ε} :
    x >>= f = .error e ↔ x = .error e ∨ ∃ a, x = .ok a ∧ f a = .error e := by
  rcases x with e' | a <;> simp [bind, Except.bind]

theorem appendWithin_eq_ok_iff {limit : Nat} {text t : Bytes} {literals : List UInt8} :
    appendWithin limit text literals = .ok t ↔ t = text ++ literals ∧ t.size ≤ limit := by
  have hsize := size_append_list text literals
  by_cases hfit : text.size + literals.length ≤ limit
  · rw [appendWithin, if_pos hfit, Except.ok.injEq]
    refine ⟨?_, fun h => h.1.symm⟩
    rintro rfl
    exact ⟨rfl, by omega⟩
  · simp only [appendWithin, if_neg hfit, reduceCtorEq, false_iff, not_and]
    rintro rfl
    omega

theorem copyWithin_eq_ok_iff {limit offset length : Nat} {text t : Bytes} :
    copyWithin limit text offset length = .ok t ↔
      offset ≤ text.size ∧ t = copyBack offset length text ∧ t.size ≤ limit := by
  have hsize := size_copyBack offset length text
  by_cases hfit : text.size + length ≤ limit ∧ offset ≤ text.size
  · rw [copyWithin, if_pos hfit, Except.ok.injEq]
    refine ⟨?_, fun h => h.2.1.symm⟩
    rintro rfl
    exact ⟨hfit.2, rfl, by omega⟩
  · simp only [copyWithin, if_neg hfit, reduceCtorEq, false_iff, not_and]
    rintro hback rfl
    omega

/-- Literals that do not fit leave the text. -/
theorem eq_of_appendWithin_eq_error {limit : Nat} {text stuck : Bytes} {literals : List UInt8}
    (h : appendWithin limit text literals = .error stuck) : stuck = text := by
  unfold appendWithin at h
  split at h
  · simp at h
  · exact (Except.error.inj h).symm

/-- A copy that cannot be made leaves the text. -/
theorem eq_of_copyWithin_eq_error {limit offset length : Nat} {text stuck : Bytes}
    (h : copyWithin limit text offset length = .error stuck) : stuck = text := by
  unfold copyWithin at h
  split at h
  · simp at h
  · exact (Except.error.inj h).symm

/-! ### Text only grows -/

/-- A copy leaves the text in front of it. -/
theorem exists_copyBack_eq_append (offset : Nat) :
    ∀ (count : Nat) (text : Bytes),
      ∃ added : Bytes, added.size = count ∧ copyBack offset count text = text ++ added := by
  intro count
  induction count with
  | zero => intro text; exact ⟨#[], rfl, by simp [copyBack]⟩
  | succ count ih =>
      intro text
      obtain ⟨added, hsize, heq⟩ := ih (text.push (text.getD (text.size - offset) 0))
      refine ⟨#[text.getD (text.size - offset) 0] ++ added, by simp [hsize]; omega, ?_⟩
      rw [copyBack, heq, ← Array.append_assoc]
      rfl

namespace Sequence

variable {text t : Bytes} {s : Sequence}

theorem extend?_eq_some_iff :
    s.extend? text = some t ↔ s.offset ≤ (text ++ s.literals).size ∧
      copyBack s.offset s.length (text ++ s.literals) = t := by
  rw [extend?, size_append_list]
  by_cases hback : s.offset ≤ text.size + s.literals.length <;> simp [hback]

/-- A sequence appends as many bytes as it stands for. -/
theorem exists_eq_append_of_extend? (h : s.extend? text = some t) :
    ∃ added : Bytes, added.size = s.size ∧ t = text ++ added := by
  obtain ⟨-, rfl⟩ := extend?_eq_some_iff.mp h
  obtain ⟨added, hsize, heq⟩ := exists_copyBack_eq_append s.offset s.length (text ++ s.literals)
  refine ⟨s.literals.toArray ++ added, by simp [size, hsize], ?_⟩
  rw [heq, append_list_eq, Array.append_assoc]

theorem size_of_extend? (h : s.extend? text = some t) : t.size = text.size + s.size := by
  obtain ⟨added, hsize, rfl⟩ := exists_eq_append_of_extend? h
  rw [Array.size_append, hsize]

/-- A bounded sequence is the sequence, as long as the text stays within the bound. -/
theorem expand_eq_ok_iff (limit : Nat) :
    s.expand limit text = .ok t ↔ s.extend? text = some t ∧ t.size ≤ limit := by
  rw [expand, bind_eq_ok_iff, extend?_eq_some_iff]
  constructor
  · rintro ⟨u, hu, ht⟩
    obtain ⟨rfl, -⟩ := appendWithin_eq_ok_iff.mp hu
    obtain ⟨hback, rfl, hle⟩ := copyWithin_eq_ok_iff.mp ht
    exact ⟨⟨hback, rfl⟩, hle⟩
  · rintro ⟨⟨hback, rfl⟩, hle⟩
    have hsize := size_copyBack s.offset s.length (text ++ s.literals)
    exact ⟨_, appendWithin_eq_ok_iff.mpr ⟨rfl, by omega⟩,
      copyWithin_eq_ok_iff.mpr ⟨hback, rfl, hle⟩⟩

/-- A copy does not see what stands in front of the text it reads. -/
theorem extend?_append (front : Bytes) (h : s.extend? text = some t) :
    s.extend? (front ++ text) = some (front ++ t) := by
  have hcopy : ∀ (count : Nat) (u : Bytes), s.offset ≤ u.size →
      copyBack s.offset count (front ++ u) = front ++ copyBack s.offset count u := by
    intro count
    induction count with
    | zero => intro u _; rfl
    | succ count ih =>
        intro u hu
        have hindex : (front ++ u).size - s.offset = front.size + (u.size - s.offset) := by
          rw [Array.size_append]
          omega
        have hbyte : (front ++ u).getD (front.size + (u.size - s.offset)) 0
            = u.getD (u.size - s.offset) 0 := by
          simp [Array.getD_eq_getD_getElem?, Array.getElem?_append_right]
        rw [copyBack, copyBack, hindex, hbyte, ← Array.append_push]
        exact ih _ (by rw [Array.size_push]; omega)
  obtain ⟨hback, rfl⟩ := extend?_eq_some_iff.mp h
  rw [extend?_eq_some_iff, append_list_assoc]
  exact ⟨by rw [Array.size_append]; omega, hcopy s.length _ hback⟩

end Sequence

namespace Reading

variable {text t : Bytes}

theorem exists_eq_append_of_foldlM (sequences : List Sequence) :
    ∀ {text t : Bytes}, sequences.foldlM Sequence.extend? text = some t →
      ∃ added : Bytes, t = text ++ added := by
  induction sequences with
  | nil =>
      intro text t h
      obtain rfl : text = t := Option.some.inj h
      exact ⟨#[], Array.append_empty.symm⟩
  | cons s rest ih =>
      intro text t h
      rw [List.foldlM_cons] at h
      obtain ⟨u, hu, h⟩ := Option.bind_eq_some_iff.mp h
      obtain ⟨added, -, rfl⟩ := Sequence.exists_eq_append_of_extend? hu
      obtain ⟨more, rfl⟩ := ih h
      exact ⟨added ++ more, Array.append_assoc⟩

/-- A block leaves the text in front of it. -/
theorem exists_eq_append_of_extend? {r : Reading} (h : r.extend? text = some t) :
    ∃ added : Bytes, t = text ++ added := by
  obtain ⟨u, hu, htail⟩ := Option.bind_eq_some_iff.mp h
  obtain ⟨literals, -, rfl⟩ := Option.map_eq_some_iff.mp htail
  obtain ⟨added, rfl⟩ := exists_eq_append_of_foldlM r.sequences hu
  refine ⟨added ++ literals.toArray, ?_⟩
  rw [append_list_eq, Array.append_assoc]

/-! ### The room only compares -/

private theorem foldlM_expand_eq_ok_iff (limit : Nat) (sequences : List Sequence) :
    ∀ {text t : Bytes}, text.size ≤ limit →
      (sequences.foldlM (Sequence.expand limit) text = .ok t ↔
        sequences.foldlM Sequence.extend? text = some t ∧ t.size ≤ limit) := by
  induction sequences with
  | nil =>
      intro text t hle
      simp only [List.foldlM_nil, pure, Except.pure, Except.ok.injEq, Option.some.injEq]
      refine ⟨?_, fun h => h.1⟩
      rintro rfl
      exact ⟨rfl, hle⟩
  | cons s rest ih =>
      intro text t hle
      rw [List.foldlM_cons, List.foldlM_cons, bind_eq_ok_iff]
      constructor
      · rintro ⟨u, hu, ht⟩
        obtain ⟨hs, hule⟩ := (Sequence.expand_eq_ok_iff limit).mp hu
        obtain ⟨hrest, htle⟩ := (ih hule).mp ht
        exact ⟨Option.bind_eq_some_iff.mpr ⟨u, hs, hrest⟩, htle⟩
      · rintro ⟨h, htle⟩
        obtain ⟨u, hs, hrest⟩ := Option.bind_eq_some_iff.mp h
        have hule : u.size ≤ limit := by
          obtain ⟨added, rfl⟩ := exists_eq_append_of_foldlM rest hrest
          rw [Array.size_append] at htle
          omega
        exact ⟨u, (Sequence.expand_eq_ok_iff limit).mpr ⟨hs, hule⟩, (ih hule).mpr ⟨hrest, htle⟩⟩

theorem expand_eq_ok_iff {limit : Nat} (r : Reading) (hle : text.size ≤ limit) :
    r.expand limit text = .ok t ↔ r.extend? text = some t ∧ t.size ≤ limit := by
  have hfold := fun u => foldlM_expand_eq_ok_iff limit r.sequences (t := u) hle
  rw [expand, extend?, bind_eq_ok_iff, Option.bind_eq_bind, Option.bind_eq_some_iff]
  constructor
  · rintro ⟨u, hu, ht⟩
    rcases htail : r.tail with _ | literals
    · simp [htail] at ht
    · rw [htail] at ht
      obtain ⟨rfl, htle⟩ := appendWithin_eq_ok_iff.mp ht
      exact ⟨⟨u, ((hfold u).mp hu).1, rfl⟩, htle⟩
  · rintro ⟨⟨u, hu, ht⟩, htle⟩
    obtain ⟨literals, htail, rfl⟩ := Option.map_eq_some_iff.mp ht
    have hule : u.size ≤ limit := by
      rw [size_append_list] at htle
      omega
    refine ⟨u, (hfold u).mpr ⟨hu, hule⟩, ?_⟩
    rw [htail]
    exact appendWithin_eq_ok_iff.mpr ⟨rfl, htle⟩

/-! ### What a failure leaves is bounded too -/

private theorem size_le_of_sequence_error {limit : Nat} {s : Sequence} {stuck : Bytes}
    (hle : text.size ≤ limit) (h : s.expand limit text = .error stuck) : stuck.size ≤ limit := by
  rcases bind_eq_error_iff.mp h with hliterals | ⟨u, hu, hcopy⟩
  · rw [eq_of_appendWithin_eq_error hliterals]
    exact hle
  · rw [eq_of_copyWithin_eq_error hcopy]
    exact (appendWithin_eq_ok_iff.mp hu).2

private theorem size_le_of_foldlM_error {limit : Nat} {stuck : Bytes} (sequences : List Sequence) :
    ∀ {text : Bytes}, text.size ≤ limit →
      sequences.foldlM (Sequence.expand limit) text = .error stuck → stuck.size ≤ limit := by
  induction sequences with
  | nil => intro text _ h; simp [pure, Except.pure] at h
  | cons s rest ih =>
      intro text hle h
      rw [List.foldlM_cons] at h
      rcases bind_eq_error_iff.mp h with hs | ⟨u, hu, hrest⟩
      · exact size_le_of_sequence_error hle hs
      · exact ih ((Sequence.expand_eq_ok_iff limit).mp hu).2 hrest

/-- The text at which a block got stuck stays within the bound. -/
theorem size_le_of_expand_error {limit : Nat} {r : Reading} {stuck : Bytes}
    (hle : text.size ≤ limit) (h : r.expand limit text = .error stuck) : stuck.size ≤ limit := by
  rcases bind_eq_error_iff.mp h with hfold | ⟨u, hu, htail⟩
  · exact size_le_of_foldlM_error r.sequences hle hfold
  · have hule := ((foldlM_expand_eq_ok_iff limit r.sequences hle).mp hu).2
    cases hr : r.tail with
    | none =>
        rw [hr] at htail
        rw [← Except.error.inj htail]
        exact hule
    | some literals =>
        rw [hr] at htail
        rw [eq_of_appendWithin_eq_error htail]
        exact hule

/-! ### More in front -/

theorem extend?_append (front : Bytes) {r : Reading} (h : r.extend? text = some t) :
    r.extend? (front ++ text) = some (front ++ t) := by
  have hfold : ∀ (sequences : List Sequence) {text u : Bytes},
      sequences.foldlM Sequence.extend? text = some u →
      sequences.foldlM Sequence.extend? (front ++ text) = some (front ++ u) := by
    intro sequences
    induction sequences with
    | nil =>
        intro text u h
        obtain rfl : text = u := Option.some.inj h
        rfl
    | cons s rest ih =>
        intro text u h
        rw [List.foldlM_cons] at h ⊢
        obtain ⟨v, hv, h⟩ := Option.bind_eq_some_iff.mp h
        exact Option.bind_eq_some_iff.mpr ⟨front ++ v, Sequence.extend?_append front hv, ih h⟩
  obtain ⟨u, hu, ht⟩ := Option.bind_eq_some_iff.mp h
  obtain ⟨literals, htail, rfl⟩ := Option.map_eq_some_iff.mp ht
  refine Option.bind_eq_some_iff.mpr ⟨front ++ u, hfold r.sequences hu, ?_⟩
  rw [htail, Option.map_some, append_list_assoc]

end Reading

/-! ### Frames -/

/-- A frame has a meaning exactly if its block extends the dictionary by it. -/
theorem frameText?_eq_some_iff {dictionary frame plain : Bytes} :
    frameText? dictionary frame = some plain ↔
      (Reading.ofBytes frame.toList).extend? dictionary = some (dictionary ++ plain) := by
  unfold frameText?
  constructor
  · intro h
    obtain ⟨t, ht, rfl⟩ := Option.map_eq_some_iff.mp h
    obtain ⟨added, rfl⟩ := Reading.exists_eq_append_of_extend? ht
    rw [ht, extract_append_size]
  · intro h
    rw [h, Option.map_some, extract_append_size]

/-- **A frame decodes exactly if it has a meaning that fits the room.** -/
theorem expandFrame_eq_ok_iff {dictionary frame plain : Bytes} {room : Nat} :
    expandFrame dictionary room frame = .ok plain ↔
      frameText? dictionary frame = some plain ∧ plain.size ≤ room := by
  have hexpand := fun t => Reading.expand_eq_ok_iff (t := t) (Reading.ofBytes frame.toList)
    (Nat.le_add_right dictionary.size room)
  have hframe : expandFrame dictionary room frame = .ok plain ↔
      ∃ t, (Reading.ofBytes frame.toList).expand (dictionary.size + room) dictionary = .ok t ∧
        t.extract dictionary.size t.size = plain := by
    unfold expandFrame
    rcases (Reading.ofBytes frame.toList).expand _ dictionary with stuck | t <;> simp
  rw [hframe, frameText?_eq_some_iff]
  constructor
  · rintro ⟨t, ht, rfl⟩
    obtain ⟨htext, htle⟩ := (hexpand t).mp ht
    obtain ⟨added, rfl⟩ := Reading.exists_eq_append_of_extend? htext
    rw [Array.size_append] at htle
    rw [extract_append_size]
    exact ⟨htext, by omega⟩
  · rintro ⟨htext, hle⟩
    refine ⟨dictionary ++ plain, (hexpand _).mpr ⟨htext, ?_⟩, extract_append_size _ _⟩
    rw [Array.size_append]
    omega

theorem size_le_of_expandFrame {dictionary frame plain : Bytes} {room : Nat}
    (h : expandFrame dictionary room frame = .ok plain) : plain.size ≤ room :=
  (expandFrame_eq_ok_iff.mp h).2

/-- What a frame that does not decode stood for up to its fault fits the room as well. -/
theorem size_le_of_expandFrame_error {dictionary frame plain : Bytes} {room : Nat}
    (h : expandFrame dictionary room frame = .error plain) : plain.size ≤ room := by
  unfold expandFrame at h
  cases hexpand : (Reading.ofBytes frame.toList).expand (dictionary.size + room) dictionary with
  | ok text => simp [hexpand] at h
  | error stuck =>
      have hstuck := Reading.size_le_of_expand_error (Nat.le_add_right _ _) hexpand
      rw [hexpand] at h
      rw [← Except.error.inj h, Array.size_extract]
      omega

/-- **More text in front of the dictionary does not change the meaning of a frame.** -/
theorem frameText?_append (front : Bytes) {dictionary frame plain : Bytes}
    (h : frameText? dictionary frame = some plain) :
    frameText? (front ++ dictionary) frame = some plain := by
  rw [frameText?_eq_some_iff] at h ⊢
  rw [Reading.extend?_append front h, Array.append_assoc]

/-- A frame that decodes decodes to the same behind more of the past and into more room. -/
theorem expandFrame_mono {reach reach' room room' : Nat} {past frame message : Bytes}
    (hreach : reach ≤ reach') (hroom : room ≤ room')
    (h : expandFrame (lastBytes reach past) room frame = .ok message) :
    expandFrame (lastBytes reach' past) room' frame = .ok message := by
  obtain ⟨htext, hsize⟩ := expandFrame_eq_ok_iff.mp h
  have hsuffix := extract_append_lastBytes reach (lastBytes reach' past)
  rw [lastBytes_lastBytes hreach] at hsuffix
  rw [← hsuffix]
  exact expandFrame_eq_ok_iff.mpr ⟨frameText?_append _ htext, Nat.le_trans hsize hroom⟩

end WindowedLz4
