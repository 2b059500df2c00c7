/-
What a history recalls.

`History.Recalls` says that the tail is the end of a byte string.  Retiring a
window appends it to that string, and a dictionary is the end of the string with
the window behind it.  Neither the sizes of the windows nor the branch that was
taken shows, because each branch is the same cut of the same joined string, made
where it costs least.

After any calls, then, a history is the end of all that it was given to retire, and the
dictionaries to come can be told from those bytes alone (`Recalls.answers_eq`): not how
they were cut into windows, nor which dictionaries were asked for before.
-/
import WindowedLz4.History
import WindowedLz4.Proofs.Bytes
namespace WindowedLz4

namespace History

/-! ### Both operations cut the same joined string -/

@[simp] theorem limit_retire (h : History) (window : Bytes) :
    (h.retire window).limit = h.limit := by
  unfold retire
  split <;> rfl

/-- What is kept of the history and a window that goes is the end of the two. -/
theorem tail_retire (h : History) (window : Bytes) :
    (h.retire window).tail = lastBytes h.limit (h.tail ++ window) := by
  unfold retire
  split
  · next hle => exact (lastBytes_append_of_le h.tail hle).symm
  · next hlt => exact (lastBytes_append_of_ge h.tail (Nat.le_of_not_le hlt)).symm

/-- A dictionary is the end of the history and the window before the message. -/
theorem dictionary_eq (h : History) (before : Bytes) :
    (h.dictionary before).1 = lastBytes h.limit (h.tail ++ before) := by
  unfold dictionary
  split
  · next hcut =>
    rcases Bool.or_eq_true_iff.mp hcut with hempty | hle
    · rw [Array.isEmpty_iff.mp hempty, Array.empty_append]
    · exact (lastBytes_append_of_le h.tail (by simpa using hle)).symm
  · next hjoin =>
    have hlt : before.size ≤ h.limit := by
      simp only [Bool.or_eq_true, decide_eq_true_eq, not_or] at hjoin
      omega
    exact (lastBytes_append_of_ge h.tail hlt).symm

@[simp] theorem limit_dictionary (h : History) (before : Bytes) :
    (h.dictionary before).2.limit = h.limit := by
  unfold dictionary
  split <;> rfl

@[simp] theorem tail_dictionary (h : History) (before : Bytes) :
    (h.dictionary before).2.tail = h.tail := by
  unfold dictionary
  split <;> rfl

/-! ### What a history recalls -/

/-- The history keeps the end of `gone`, up to its limit. -/
def Recalls (h : History) (gone : Bytes) : Prop :=
  h.tail = lastBytes h.limit gone

theorem recalls_ofDictionarySize (dictionarySize : Nat) :
    (ofDictionarySize dictionarySize).Recalls #[] :=
  (lastBytes_empty _).symm

variable {h : History} {gone : Bytes}

/-- A retired window joins what is recalled. -/
theorem Recalls.retire (hr : h.Recalls gone) (window : Bytes) :
    (h.retire window).Recalls (gone ++ window) := by
  unfold Recalls at *
  rw [tail_retire, limit_retire, hr, lastBytes_lastBytes_append]

/-- Asking for a dictionary leaves what is recalled. -/
theorem Recalls.dictionary (hr : h.Recalls gone) (before : Bytes) :
    (h.dictionary before).2.Recalls gone := by
  unfold Recalls at *
  rw [tail_dictionary, limit_dictionary, hr]

/-- The dictionary of a message is the end of everything before it. -/
theorem Recalls.dictionary_eq (hr : h.Recalls gone) (before : Bytes) :
    (h.dictionary before).1 = lastBytes h.limit (gone ++ before) := by
  rw [History.dictionary_eq, hr, lastBytes_lastBytes_append]

/-! ### Calls -/

/-- A call on a history. -/
inductive Call where
  | retire (window : Bytes)
  | dictionary (before : Bytes)
  deriving DecidableEq, Repr, Inhabited

/-- The bytes that a call gives to retire. -/
def Call.retired : Call → Bytes
  | retire window => window
  | dictionary _ => #[]

/-- The bytes that some calls give to retire. -/
def retiredBy (calls : List Call) : Bytes :=
  joined (calls.map Call.retired)

/-- The history after a call. -/
def serve (h : History) : Call → History
  | .retire window => h.retire window
  | .dictionary before => (h.dictionary before).2

/-- The history after some calls. -/
def run (h : History) (calls : List Call) : History :=
  calls.foldl serve h

/-- The dictionaries that some calls ask for. -/
def answers (h : History) : List Call → List Bytes
  | [] => []
  | .retire window :: rest => (h.retire window).answers rest
  | .dictionary before :: rest => (h.dictionary before).1 :: (h.dictionary before).2.answers rest

/-- The dictionaries that some calls ask for, if nothing of `gone` was ever cut off. -/
def idealAnswers (limit : Nat) (gone : Bytes) : List Call → List Bytes
  | [] => []
  | .retire window :: rest => idealAnswers limit (gone ++ window) rest
  | .dictionary before :: rest => lastBytes limit (gone ++ before) :: idealAnswers limit gone rest

theorem limit_serve (h : History) (call : Call) : (h.serve call).limit = h.limit := by
  cases call with
  | retire window => exact h.limit_retire window
  | dictionary before => exact h.limit_dictionary before

theorem limit_run (calls : List Call) : ∀ h : History, (h.run calls).limit = h.limit := by
  induction calls with
  | nil => intro h; rfl
  | cons call rest ih => intro h; exact (ih (h.serve call)).trans (h.limit_serve call)

/-- A call adds what it gives to retire, and nothing else. -/
theorem Recalls.serve (hr : h.Recalls gone) (call : Call) :
    (h.serve call).Recalls (gone ++ call.retired) := by
  cases call with
  | retire window => exact hr.retire window
  | dictionary before =>
      rw [Call.retired, Array.append_empty]
      exact hr.dictionary before

theorem Recalls.run (calls : List Call) :
    ∀ {h : History} {gone : Bytes}, h.Recalls gone →
      (h.run calls).Recalls (gone ++ retiredBy calls) := by
  induction calls with
  | nil =>
      intro h gone hr
      rw [retiredBy, List.map_nil, joined, Array.append_empty]
      exact hr
  | cons call rest ih =>
      intro h gone hr
      rw [retiredBy, List.map_cons, joined, ← Array.append_assoc]
      exact ih (hr.serve call)

/-- **A history answers all calls from what it recalls.** -/
theorem Recalls.answers_eq (calls : List Call) :
    ∀ {h : History} {gone : Bytes}, h.Recalls gone →
      h.answers calls = idealAnswers h.limit gone calls := by
  induction calls with
  | nil => intro h gone _; rfl
  | cons call rest ih =>
      intro h gone hr
      cases call with
      | retire window =>
          rw [answers, idealAnswers, ih (hr.retire window), limit_retire]
      | dictionary before =>
          rw [answers, idealAnswers, ih (hr.dictionary before), limit_dictionary, hr.dictionary_eq]

/--
**A history is the bounded end of all that was retired.**

After any calls, the tail is the last bytes of all the windows that were retired, and a
dictionary is the last bytes of those windows and of the one before the message, as many as
the limit allows and as there are.  All dictionaries to come are those of a history that
never cut anything off.  So two windows that are retired one after the other are one window,
and a dictionary that was asked for leaves no trace.
-/
theorem calls_keep_suffix (dictionarySize : Nat) (calls : List Call) :
    let limit := min dictionarySize maxDistance
    let h := (ofDictionarySize dictionarySize).run calls
    let gone := retiredBy calls
    (h.tail = lastBytes limit gone ∧ h.tail.size = min limit gone.size) ∧
    (∀ before, (h.dictionary before).1 = lastBytes limit (gone ++ before) ∧
      (h.dictionary before).1.size = min limit (gone.size + before.size)) ∧
    (∀ more, h.answers more = idealAnswers limit gone more) ∧
    (∀ first second more,
      ((h.retire first).retire second).tail = (h.retire (first ++ second)).tail ∧
      ((h.retire first).retire second).answers more = (h.retire (first ++ second)).answers more) ∧
    ∀ before more, (h.dictionary before).2.tail = h.tail ∧
      (h.dictionary before).2.answers more = h.answers more := by
  intro limit h gone
  have hlimit : h.limit = limit := limit_run calls _
  have hrecalls : h.Recalls gone := by
    have hrun := (recalls_ofDictionarySize dictionarySize).run calls
    rwa [Array.empty_append] at hrun
  refine ⟨?_, fun before => ?_, fun more => ?_, fun first second more => ?_,
    fun before more => ⟨tail_dictionary h before, ?_⟩⟩
  · have htail : h.tail = lastBytes limit gone := hlimit ▸ hrecalls
    exact ⟨htail, by rw [htail, size_lastBytes]⟩
  · have hdictionary := hrecalls.dictionary_eq before
    rw [hlimit] at hdictionary
    exact ⟨hdictionary, by rw [hdictionary, size_lastBytes, Array.size_append]⟩
  · rw [hrecalls.answers_eq, hlimit]
  · have htwice := (hrecalls.retire first).retire second
    have honce := hrecalls.retire (first ++ second)
    rw [Array.append_assoc] at htwice
    refine ⟨?_, ?_⟩
    · rw [htwice, honce]
      simp only [limit_retire]
    · rw [htwice.answers_eq, honce.answers_eq]
      simp only [limit_retire]
  · rw [(hrecalls.dictionary before).answers_eq, hrecalls.answers_eq, limit_dictionary]

end History

end WindowedLz4
