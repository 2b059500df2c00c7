/-
Ledgers add up.

The ledger of some calls is how many they are, what went into them and what came out
(`ofEntries`).  Under `+` ledgers are a commutative monoid, so it makes no difference
which of them are brought together first, whether by `merge` or by `+`: the total is the
ledger of all the calls (`Merging.total_eq`).

A ledger is also kept call by call, and so are the other sums that sessions are measured
by.  `visits` are the steps of a run, each with the state it is taken in; a measure that
every step adds something to is in the end what it was at first, with all that was added
(`measure_foldl`).  What the sessions keep are instances of that.
-/
import Mathlib
import WindowedLz4.Ledger
namespace WindowedLz4

/-- A call that succeeded: the bytes that went in, and the length that it returned. -/
structure Entry where
  source : Nat
  output : Nat
  deriving DecidableEq, Repr, Inhabited

namespace Ledger

/-- The ledger of some calls. -/
def ofEntries (entries : List Entry) : Ledger where
  calls := entries.length
  sourceBytes := (entries.map Entry.source).sum
  outputBytes := (entries.map Entry.output).sum

/-- The ledger of the same calls seen from the other end, where what went in came out. -/
def mirrored (l : Ledger) : Ledger where
  calls := l.calls
  sourceBytes := l.outputBytes
  outputBytes := l.sourceBytes

theorem add_eq (l m : Ledger) :
    l + m = ⟨l.calls + m.calls, l.sourceBytes + m.sourceBytes, l.outputBytes + m.outputBytes⟩ :=
  rfl

/-- The ledger of no calls at all. -/
instance : Zero Ledger := ⟨{}⟩

instance : AddCommMonoid Ledger where
  add_assoc l m n := by simp only [add_eq, Nat.add_assoc]
  zero_add l := by
    show (({} : Ledger) + l) = l
    simp only [add_eq, Nat.zero_add]
  add_zero _ := rfl
  add_comm l m := by
    rw [add_eq, add_eq, Nat.add_comm l.calls, Nat.add_comm l.sourceBytes,
      Nat.add_comm l.outputBytes]
  nsmul := nsmulRec

theorem outputBytes_add (l m : Ledger) :
    (l + m).outputBytes = l.outputBytes + m.outputBytes := rfl

theorem ofEntries_append (entries later : List Entry) :
    ofEntries (entries ++ later) = ofEntries entries + ofEntries later := by
  simp only [ofEntries, add_eq, List.length_append, List.map_append, List.sum_append]

/-- A recorded call is one more entry. -/
theorem record_ofEntries (entries : List Entry) (source output : Nat) :
    (ofEntries entries).record source output = ofEntries (entries ++ [⟨source, output⟩]) := by
  rw [ofEntries_append, record_eq_add]
  rfl

/-- The ledger of the calls of several sessions is the sum of theirs. -/
theorem sum_map_ofEntries (sessions : List (List Entry)) :
    (sessions.map ofEntries).sum = ofEntries sessions.flatten := by
  induction sessions with
  | nil => rfl
  | cons entries rest ih =>
      rw [List.map_cons, List.sum_cons, ih, List.flatten_cons, ofEntries_append]

/-- The ledger of the calls that count is the sum of what each call adds. -/
theorem sum_map_toList {α : Type} (recorded? : α → Option Entry) (calls : List α) :
    (calls.map fun call => ofEntries (recorded? call).toList).sum
      = ofEntries (calls.filterMap recorded?) := by
  induction calls with
  | nil => rfl
  | cons call rest ih =>
      rw [List.map_cons, List.sum_cons, ih, ← ofEntries_append, List.filterMap_cons]
      cases recorded? call <;> rfl

end Ledger

/-! ### Bringing ledgers together -/

/-- A way to bring ledgers together, two at a time, with blank ones to begin with. -/
inductive Merging where
  | blank
  | of (ledger : Ledger)
  | merge (first second : Merging)
  | add (first second : Merging)
  deriving DecidableEq, Repr, Inhabited

namespace Merging

/-- The ledger that comes out. -/
def total : Merging → Ledger
  | blank => {}
  | of ledger => ledger
  | merge first second => first.total.merge second.total
  | add first second => first.total + second.total

/-- The ledgers that go in. -/
def leaves : Merging → List Ledger
  | blank => []
  | of ledger => [ledger]
  | merge first second => first.leaves ++ second.leaves
  | add first second => first.leaves ++ second.leaves

theorem total_eq_sum (m : Merging) : m.total = m.leaves.sum := by
  induction m with
  | blank => rfl
  | of ledger => exact (List.sum_singleton).symm
  | merge first second ihfirst ihsecond =>
      rw [leaves, List.sum_append, ← ihfirst, ← ihsecond]
      rfl
  | add first second ihfirst ihsecond =>
      rw [total, leaves, List.sum_append, ihfirst, ihsecond]

/-- **Neither the order nor the grouping shows**: the total is the ledger of all the calls. -/
theorem total_eq {m : Merging} {sessions : List (List Entry)}
    (h : m.leaves.Perm (sessions.map Ledger.ofEntries)) :
    m.total = .ofEntries sessions.flatten := by
  rw [total_eq_sum, h.sum_eq, Ledger.sum_map_ofEntries]

end Merging

/-! ### Sums over a run -/

section Runs

variable {σ ι M : Type}

/-- The steps of a run, each with the state that it is taken in. -/
def visits (next : σ → ι → σ) (s : σ) : List ι → List (σ × ι)
  | [] => []
  | input :: rest => (s, input) :: visits next (next s input) rest

/-- A measure that every step adds something to, in the states that a run can come to, is after
the run what it was before with all that was added. -/
theorem measure_foldl [AddCommMonoid M] (next : σ → ι → σ) (inv : σ → Prop) (measure : σ → M)
    (added : σ → ι → M) (hinv : ∀ s input, inv s → inv (next s input))
    (hstep : ∀ s input, inv s → measure (next s input) = measure s + added s input)
    (inputs : List ι) : ∀ {s}, inv s →
      measure (inputs.foldl next s)
        = measure s + ((visits next s inputs).map fun visit => added visit.1 visit.2).sum := by
  induction inputs with
  | nil => intro s _; exact (add_zero (measure s)).symm
  | cons input rest ih =>
      intro s h
      rw [List.foldl_cons, ih (hinv s input h), hstep s input h, visits, List.map_cons,
        List.sum_cons, add_assoc]

end Runs

end WindowedLz4
