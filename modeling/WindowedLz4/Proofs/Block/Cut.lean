/-
What a frame stands for that was cut short.

A reader of the first part of a frame goes along with a reader of the whole, sequence by
sequence, until its bytes run out.  Nearly everywhere that is a fault.  It is an end only
where the bytes run out behind literals, since a block ends there; the reader of the whole
then goes on to the copy that these literals belong to (`continueFrom_append_of_tail`), and
a copy has at least four bytes.  So a part of a frame that still means something means a
part of what the frame means, and less (`ProperPrefix.frameText?`).
-/
import WindowedLz4.Proofs.Block.Head
import WindowedLz4.Proofs.Block.Meaning
namespace WindowedLz4

/-- `part` is what `whole` begins with, and not all of it. -/
def ProperPrefix (part whole : Bytes) : Prop :=
  ∃ rest : Bytes, 0 < rest.size ∧ whole = part ++ rest

/-! ### Readings -/

namespace Reading

/-- The sequences that were read before stay in front. -/
theorem exists_sequences_continueFrom (before : List Sequence) (bytes : List UInt8) :
    ∃ later, (continueFrom before bytes).sequences = before.reverse ++ later := by
  fun_induction continueFrom before bytes with
  | case1 before bytes s rest h ih =>
      obtain ⟨later, hlater⟩ := ih
      exact ⟨s :: later, by rw [hlater, List.reverse_cons, List.append_assoc]; rfl⟩
  | case2 before bytes literals h => exact ⟨[], (List.append_nil _).symm⟩
  | case3 before bytes h => exact ⟨[], (List.append_nil _).symm⟩

/-- **A reading that came to an end goes on with a copy behind its last literals**, or with a
fault, if there are more bytes. -/
theorem continueFrom_append_of_tail {more : List UInt8} (hmore : more ≠ []) {tail : List UInt8}
    (before : List Sequence) (bytes : List UInt8) :
    (continueFrom before bytes).tail = some tail →
      continueFrom before (bytes ++ more) = ⟨(continueFrom before bytes).sequences, none⟩ ∨
      ∃ s later tail', s.literals = tail ∧ Sequence.minLength ≤ s.length ∧
        continueFrom before (bytes ++ more)
          = ⟨(continueFrom before bytes).sequences ++ s :: later, tail'⟩ := by
  fun_induction continueFrom before bytes with
  | case1 before bytes s rest h ih =>
      intro htail
      rw [continueFrom_sequence before (readHead_append_of_sequence h more)]
      exact ih htail
  | case2 before bytes literals h =>
      intro htail
      obtain rfl : literals = tail := Option.some.inj htail
      rcases readHead_append_of_tail h hmore with hfault | ⟨s, rest, hhead, hliterals, hlength⟩
      · exact .inl (continueFrom_fault before hfault)
      · obtain ⟨later, hlater⟩ := exists_sequences_continueFrom (s :: before) rest
        rw [List.reverse_cons, List.append_assoc] at hlater
        refine .inr ⟨s, later, (continueFrom (s :: before) rest).tail, hliterals, hlength, ?_⟩
        show _ = Reading.mk (before.reverse ++ ([s] ++ later)) _
        rw [continueFrom_sequence before hhead, ← hlater]
  | case3 before bytes h =>
      intro htail
      exact absurd htail (by simp)

end Reading

/-! ### Meanings -/

/-- A sequence appends its literals and then its copy. -/
theorem Sequence.exists_copied_of_extend? {text t : Bytes} {s : Sequence}
    (h : s.extend? text = some t) :
    ∃ copied : Bytes, copied.size = s.length ∧ t = text ++ s.literals ++ copied := by
  obtain ⟨-, rfl⟩ := Sequence.extend?_eq_some_iff.mp h
  obtain ⟨copied, hsize, heq⟩ := exists_copyBack_eq_append s.offset s.length (text ++ s.literals)
  exact ⟨copied, hsize, heq⟩

/-- A block that goes on behind these sequences with another one extends the text by more than
them and the literals of that one. -/
private theorem Reading.extend?_properPrefix {sequences later : List Sequence} {s : Sequence}
    {tail : Option (List UInt8)} {text part whole : Bytes} (hlength : Sequence.minLength ≤ s.length)
    (hpart : Reading.extend? text ⟨sequences, some s.literals⟩ = some part)
    (hwhole : Reading.extend? text ⟨sequences ++ s :: later, tail⟩ = some whole) :
    ProperPrefix part whole := by
  obtain ⟨u, hu, hpart⟩ := Option.bind_eq_some_iff.mp hpart
  obtain rfl : u ++ s.literals = part := Option.some.inj hpart
  obtain ⟨v, hv, hwhole⟩ := Option.bind_eq_some_iff.mp hwhole
  obtain ⟨literals, -, rfl⟩ := Option.map_eq_some_iff.mp hwhole
  rw [List.foldlM_append, hu, Option.bind_eq_bind, Option.bind_some, List.foldlM_cons] at hv
  obtain ⟨w, hw, hv⟩ := Option.bind_eq_some_iff.mp hv
  obtain ⟨copied, hsize, rfl⟩ := Sequence.exists_copied_of_extend? hw
  obtain ⟨added, rfl⟩ := Reading.exists_eq_append_of_foldlM later hv
  refine ⟨copied ++ added ++ literals.toArray, ?_, ?_⟩
  · simp only [Sequence.minLength] at hlength
    rw [Array.size_append, Array.size_append]
    omega
  · rw [append_list_eq, Array.append_assoc, Array.append_assoc, Array.append_assoc]

/-- A block that has a meaning is whole. -/
private theorem Reading.exists_tail_of_extend? {r : Reading} {text t : Bytes}
    (h : r.extend? text = some t) : ∃ tail, r.tail = some tail := by
  obtain ⟨u, -, ht⟩ := Option.bind_eq_some_iff.mp h
  obtain ⟨tail, htail, -⟩ := Option.map_eq_some_iff.mp ht
  exact ⟨tail, htail⟩

/-- Bytes with more behind them extend a text by more, if both can be read. -/
theorem Reading.properPrefix_of_extend? {bytes more : List UInt8} {text part whole : Bytes}
    (hmore : more ≠ []) (hpart : (ofBytes bytes).extend? text = some part)
    (hwhole : (ofBytes (bytes ++ more)).extend? text = some whole) : ProperPrefix part whole := by
  obtain ⟨tail, htail⟩ := exists_tail_of_extend? hpart
  have hread : ofBytes bytes = ⟨(ofBytes bytes).sequences, some tail⟩ := by rw [← htail]
  rcases continueFrom_append_of_tail hmore [] bytes htail with hfault
    | ⟨s, later, tail', rfl, hlength, hgoes⟩
  · rw [ofBytes, hfault] at hwhole
    obtain ⟨tail', htail'⟩ := exists_tail_of_extend? hwhole
    simp at htail'
  · rw [hread] at hpart
    rw [ofBytes, hgoes] at hwhole
    exact extend?_properPrefix hlength hpart hwhole

/-- What stands in front of both does not come into it. -/
theorem ProperPrefix.of_append {front part whole : Bytes}
    (h : ProperPrefix (front ++ part) (front ++ whole)) : ProperPrefix part whole := by
  obtain ⟨rest, hrest, heq⟩ := h
  rw [Array.append_assoc] at heq
  exact ⟨rest, hrest, (Array.append_right_inj front).mp heq⟩

/-- **A part of a frame that means something means a part of what the frame means.** -/
theorem ProperPrefix.frameText? {dictionary cut frame part plain : Bytes}
    (hcut : ProperPrefix cut frame) (hpart : WindowedLz4.frameText? dictionary cut = some part)
    (hplain : WindowedLz4.frameText? dictionary frame = some plain) : ProperPrefix part plain := by
  obtain ⟨more, hmore, rfl⟩ := hcut
  have hne : more.toList ≠ [] := by
    rw [← List.length_pos_iff, Array.length_toList]
    exact hmore
  rw [frameText?_eq_some_iff] at hpart hplain
  rw [Array.toList_append] at hplain
  exact (Reading.properPrefix_of_extend? hne hpart hplain).of_append

end WindowedLz4
