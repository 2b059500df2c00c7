/-
Which members fill the slots of a record.

The names of a record are different, so a member changes at most the slot of its own
name, and a slot sees only the values of its own name.  `Fills` says what they make of
it: a slot takes one count if it is empty, and refuses all else.  That is what one member
does (`takeMember_eq_ok`), and so what any run of members does (`foldlM_takeMember_eq_ok`).

The slots begin empty and must end full.  So the members are collected if and only if
each name of the record is there once, with a count (`collect_eq_ok`), whatever order
they stand in and whatever else there is.
-/
import Mathlib
import WindowedLz4.Proofs.Json.Record
namespace WindowedLz4.Json

/-! ### One slot -/

/-- What the values of one name make of its slot. -/
inductive Fills : Option Nat → List (List Char) → Option Nat → Prop where
  | keep (slot : Option Nat) : Fills slot [] slot
  | fill {value : List Char} {k : Nat} (h : countOf value = .ok k) : Fills none [value] (some k)

theorem fills_nil_iff {slot slot' : Option Nat} : Fills slot [] slot' ↔ slot' = slot := by
  constructor
  · intro h
    cases h
    rfl
  · rintro rfl
    exact .keep _

/-- A value asks for an empty slot, and leaves none for another. -/
theorem fills_cons_iff {slot slot' : Option Nat} {value : List Char} {values : List (List Char)} :
    Fills slot (value :: values) slot' ↔
      slot = none ∧ ∃ k, countOf value = .ok k ∧ Fills (some k) values slot' := by
  constructor
  · intro h
    cases h with
    | fill h => exact ⟨rfl, _, h, .keep _⟩
  · rintro ⟨rfl, k, hcount, hrest⟩
    cases hrest with
    | keep => exact .fill hcount

theorem fills_append_iff {slot slot' : Option Nat} {earlier later : List (List Char)} :
    Fills slot (earlier ++ later) slot' ↔
      ∃ mid, Fills slot earlier mid ∧ Fills mid later slot' := by
  induction earlier generalizing slot with
  | nil => simp [fills_nil_iff]
  | cons value earlier ih =>
      rw [List.cons_append, fills_cons_iff]
      simp only [ih, fills_cons_iff]
      grind

/-! ### One member -/

section

variable {n : Nat} {names : Vector String n}

theorem valuesOf_cons (name : String) (m : Member) (members : List Member) :
    valuesOf name (m :: members) = valuesOf name [m] ++ valuesOf name members := by
  rw [valuesOf, ← List.singleton_append, List.filter_append, List.map_append]
  rfl

theorem valuesOf_self {name : String} {m : Member} (h : String.ofList m.name = name) :
    valuesOf name [m] = [m.value] := by
  simp [valuesOf, h]

theorem valuesOf_of_ne {name : String} {m : Member} (h : String.ofList m.name ≠ name) :
    valuesOf name [m] = [] := by
  simp [valuesOf, h]

theorem ext_get {α : Type} {v w : Vector α n} (h : ∀ i : Fin n, v.get i = w.get i) : v = w :=
  Vector.ext fun i hi => h ⟨i, hi⟩

/-- A vector is known by one of its elements and the others. -/
theorem eq_set_iff {α : Type} {v w : Vector α n} {i : Fin n} {x : α} :
    w = v.set i.val x i.isLt ↔ w.get i = x ∧ ∀ j : Fin n, j ≠ i → w.get j = v.get j := by
  have hself : (v.set i.val x i.isLt).get i = x := Vector.getElem_set_self i.isLt
  have hother : ∀ j : Fin n, j ≠ i → (v.set i.val x i.isLt).get j = v.get j := fun j hj =>
    Vector.getElem_set_ne i.isLt j.isLt fun hc => hj (Fin.ext hc.symm)
  constructor
  · rintro rfl
    exact ⟨hself, hother⟩
  · rintro ⟨hi, hothers⟩
    refine ext_get fun j => ?_
    by_cases hj : j = i
    · rw [hj, hi, hself]
    · rw [hothers j hj, hother j hj]

/-- **A member is taken if and only if its slot takes its value.** -/
theorem takeMember_eq_ok (hnames : Function.Injective names.get)
    {slots slots' : Vector (Option Nat) n} {m : Member} :
    takeMember names slots m = .ok slots' ↔
      ∀ i : Fin n, Fills (slots.get i) (valuesOf (names.get i) [m]) (slots'.get i) := by
  rw [takeMember]
  cases hname : names.finIdxOf? (String.ofList m.name) with
  | none =>
      have hnone := Vector.finIdxOf?_eq_none_iff.mp hname
      have hvalues : ∀ i : Fin n, valuesOf (names.get i) [m] = [] := fun i =>
        valuesOf_of_ne fun hc => hnone (hc ▸ Vector.getElem_mem i.isLt)
      simp only [hvalues, fills_nil_iff, Except.ok.injEq]
      constructor
      · rintro rfl i
        rfl
      · intro h
        exact ext_get fun i => (h i).symm
  | some i =>
      have hi : names.get i = String.ofList m.name := (Vector.finIdxOf?_eq_some_iff.mp hname).1
      have hvalue : valuesOf (names.get i) [m] = [m.value] := valuesOf_self hi.symm
      have hothers : ∀ j : Fin n, j ≠ i → valuesOf (names.get j) [m] = [] := fun j hj =>
        valuesOf_of_ne fun hc => hj (hnames (hc.symm.trans hi.symm))
      have hslots :
          (∀ j : Fin n, Fills (slots.get j) (valuesOf (names.get j) [m]) (slots'.get j)) ↔
          Fills (slots.get i) [m.value] (slots'.get i) ∧
            ∀ j : Fin n, j ≠ i → slots'.get j = slots.get j := by
        constructor
        · intro h
          refine ⟨hvalue ▸ h i, fun j hj => ?_⟩
          exact fills_nil_iff.mp (hothers j hj ▸ h j)
        · rintro ⟨hfill, hkeep⟩ j
          by_cases hj : j = i
          · rwa [hj, hvalue]
          · rw [hothers j hj]
            exact fills_nil_iff.mpr (hkeep j hj)
      simp only [hslots, fills_cons_iff, fills_nil_iff]
      cases hslot : slots.get i with
      | some k => simp
      | none =>
          cases hcount : countOf m.value with
          | error fault => simp [Except.map]
          | ok k =>
              simp only [Option.isSome_none, Bool.false_eq_true, if_false, Except.map,
                Except.ok.injEq, true_and]
              rw [eq_comm, eq_set_iff]
              simp

/-! ### Any members -/

/-- **Members are taken if and only if every slot takes the values of its name.** -/
theorem foldlM_takeMember_eq_ok (hnames : Function.Injective names.get)
    (members : List Member) :
    ∀ {slots slots' : Vector (Option Nat) n},
      members.foldlM (takeMember names) slots = .ok slots' ↔
        ∀ i : Fin n, Fills (slots.get i) (valuesOf (names.get i) members) (slots'.get i) := by
  induction members with
  | nil =>
      intro slots slots'
      rw [List.foldlM_nil]
      simp only [show ∀ name, valuesOf name [] = [] from fun _ => rfl, fills_nil_iff]
      constructor
      · intro h i
        rw [Except.ok.inj h]
      · intro h
        exact congrArg Except.ok (ext_get fun i => (h i).symm)
  | cons m members ih =>
      intro slots slots'
      simp only [valuesOf_cons _ m members, fills_append_iff]
      rw [List.foldlM_cons]
      constructor
      · intro h i
        cases hstep : takeMember names slots m with
        | error fault =>
            rw [hstep] at h
            cases h
        | ok mid =>
            rw [hstep] at h
            exact ⟨mid.get i, (takeMember_eq_ok hnames).mp hstep i, ih.mp h i⟩
      · intro h
        obtain ⟨mid, hmid⟩ := Classical.skolem.mp h
        have hstep : takeMember names slots m = .ok (Vector.ofFn mid) :=
          (takeMember_eq_ok hnames).mpr fun i => by simpa using (hmid i).1
        rw [hstep]
        exact ih.mpr fun i => by simpa using (hmid i).2

/-! ### Whole records -/

theorem filled_eq_ok {slots : Vector (Option Nat) n} {values : Vector Nat n} :
    filled slots = .ok values ↔ ∀ i : Fin n, slots.get i = some (values.get i) := by
  rw [filled]
  split
  · next h =>
    have hget : ∀ i : Fin n, some ((slots.get i).get (h i)) = slots.get i := fun i =>
      Option.some_get (h i)
    rw [Except.ok.injEq]
    constructor
    · rintro rfl i
      rw [Vector.get_ofFn]
      exact (hget i).symm
    · intro hslots
      refine ext_get fun i => ?_
      rw [Vector.get_ofFn]
      exact Option.some.inj ((hget i).trans (hslots i))
  · next h =>
    refine iff_of_false (by simp) fun hslots => h fun i => ?_
    show (slots.get i).isSome
    rw [hslots i]
    rfl

/-- A slot ends full from empty if its name has one value, and that is a count. -/
theorem fills_some_iff {values : List (List Char)} {k : Nat} :
    Fills none values (some k) ↔ ∃ value, values = [value] ∧ countOf value = .ok k := by
  constructor
  · intro h
    cases h with
    | fill h => exact ⟨_, rfl, h⟩
  · rintro ⟨value, rfl, h⟩
    exact .fill h

theorem derives_of_mem_valuesOf {name : String} {members : List Member} {value : List Char}
    (h : value ∈ valuesOf name members) : Derives .value value := by
  obtain ⟨m, -, rfl⟩ := List.mem_map.mp h
  exact m.derives

/-- The slots begin empty and end full. -/
theorem collect_eq_ok_iff_fills (hnames : Function.Injective names.get)
    {members : List Member} {values : Vector Nat n} :
    collect names members = .ok values ↔
      ∀ i : Fin n, Fills none (valuesOf (names.get i) members) (some (values.get i)) := by
  constructor
  · intro h i
    rw [collect] at h
    cases hslots : members.foldlM (takeMember names) (.replicate n none) with
    | error fault =>
        rw [hslots] at h
        cases h
    | ok slots =>
        rw [hslots] at h
        have hfills := (foldlM_takeMember_eq_ok hnames members).mp hslots i
        rw [filled_eq_ok.mp h i] at hfills
        simpa using hfills
  · intro h
    have hslots : members.foldlM (takeMember names) (.replicate n none)
        = .ok (values.map some) :=
      (foldlM_takeMember_eq_ok hnames members).mpr fun i => by simpa using h i
    rw [collect, hslots]
    exact filled_eq_ok.mpr fun i => by simp

/-- **Members are collected if and only if each name of the record is there once, with a count that
fits a word.** -/
theorem collect_eq_ok (hnames : Function.Injective names.get)
    (members : List Member) (values : Vector Nat n) :
    collect names members = .ok values ↔
      Hold names values members ∧ ∀ i : Fin n, values.get i ≤ maxWord := by
  rw [collect_eq_ok_iff_fills hnames, Hold, ← forall_and]
  refine forall_congr' fun i => ?_
  rw [fills_some_iff]
  constructor
  · rintro ⟨value, hvalue, hcount⟩
    have hderives : Derives .value value := derives_of_mem_valuesOf (hvalue ▸ List.mem_cons_self)
    obtain ⟨rfl, hword⟩ := (hderives.countOf_eq_ok _).mp hcount
    exact ⟨hvalue, hword⟩
  · rintro ⟨hvalue, hword⟩
    have hderives := derives_of_mem_valuesOf (hvalue ▸ List.mem_cons_self)
    exact ⟨_, hvalue, (hderives.countOf_eq_ok _).mpr ⟨rfl, hword⟩⟩

/-! ### What is wrong with the others -/

/-- Whatever value stands behind a name of the record is a count. -/
def Counted (names : Vector String n) (members : List Member) : Prop :=
  ∀ i : Fin n, ∀ value ∈ valuesOf (names.get i) members,
    ∃ k, value = Nat.toDigits 10 k ∧ k ≤ maxWord

theorem takeMember_mismatched {slots : Vector (Option Nat) n} {m : Member} {fault : Fault}
    (hcounted : Counted names [m]) (h : takeMember names slots m = .error fault) :
    fault = .mismatched := by
  rw [takeMember] at h
  cases hname : names.finIdxOf? (String.ofList m.name) with
  | none =>
      rw [hname] at h
      cases h
  | some i =>
      have hvalue := valuesOf_self (Vector.finIdxOf?_eq_some_iff.mp hname).1.symm
      obtain ⟨k, hk⟩ := hcounted i m.value (hvalue ▸ List.mem_cons_self)
      rw [hname, (m.derives.countOf_eq_ok k).mpr hk] at h
      simp only at h
      split at h
      · exact (Except.error.inj h).symm
      · cases h

theorem foldlM_takeMember_mismatched {members : List Member} {fault : Fault} :
    ∀ {slots : Vector (Option Nat) n}, Counted names members →
      members.foldlM (takeMember names) slots = .error fault → fault = .mismatched := by
  induction members with
  | nil =>
      intro slots _ h
      cases h
  | cons m members ih =>
      intro slots hcounted h
      rw [List.foldlM_cons] at h
      cases hstep : takeMember names slots m with
      | error fault' =>
          rw [hstep] at h
          obtain rfl : fault' = fault := Except.error.inj h
          refine takeMember_mismatched (fun i value hvalue => hcounted i value ?_) hstep
          rw [valuesOf_cons]
          exact List.mem_append_left _ hvalue
      | ok mid =>
          rw [hstep] at h
          refine ih (fun i value hvalue => hcounted i value ?_) h
          rw [valuesOf_cons]
          exact List.mem_append_right _ hvalue

/-- **If the values of the record are counts, but one is missing or there twice, the text is JSON
of the wrong kind.** -/
theorem collect_mismatched (hnames : Function.Injective names.get)
    {members : List Member} (hcounted : Counted names members) {i : Fin n}
    (hi : (valuesOf (names.get i) members).length ≠ 1) :
    collect names members = .error .mismatched := by
  cases hcollect : collect names members with
  | ok values =>
      have hheld := ((collect_eq_ok hnames members values).mp hcollect).1 i
      rw [hheld] at hi
      exact absurd rfl hi
  | error fault =>
      rw [collect] at hcollect
      cases hslots : members.foldlM (takeMember names) (.replicate n none) with
      | error fault' =>
          rw [hslots] at hcollect
          obtain rfl : fault' = fault := Except.error.inj hcollect
          rw [foldlM_takeMember_mismatched hcounted hslots]
      | ok slots =>
          rw [hslots] at hcollect
          change filled slots = _ at hcollect
          rw [filled] at hcollect
          split at hcollect
          · cases hcollect
          · exact hcollect.symm ▸ rfl

end

end WindowedLz4.Json
