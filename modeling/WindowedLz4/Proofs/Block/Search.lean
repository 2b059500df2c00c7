/-
What the search finds.

Every sequence of a block comes from one repeat, and `Passage.Fits` lists all that
is ever needed of a repeat: it stands behind what is already written, it is long
enough, it keeps its distance from the end of the text, its offset can be written
and does not lead past the start, and each of its bytes equals the one `offset`
bytes back.  `Passage.Covers` chains repeats: the sequences found so far take the
text from where the walk began to where it stands.

The walk keeps one invariant of its own, that every position in the table lies
before the one it stands at (`Table.Below`).  An empty slot reads as position 0, so
this is where it matters that the walk never looks up position 0.  With it a
candidate is a position further back, the four bytes that were compared start the
repeat, and stretching it compares every byte it adds.  `block_covers` is all the
rest of the development knows about the search.
-/
import WindowedLz4.Block.Search
namespace WindowedLz4

/-! ### The table -/

/-- Every position in the table lies before `bound`. -/
def Table.Below (table : Table) (bound : Nat) : Prop :=
  ∀ slot, table.candidate slot < bound

namespace Table

variable {table : Table} {bound : Nat}

theorem Below.mono {bound' : Nat} (h : table.Below bound) (hle : bound ≤ bound') :
    table.Below bound' :=
  fun slot => Nat.lt_of_lt_of_le (h slot) hle

theorem below_empty (h : 0 < bound) : empty.Below bound := by
  intro slot
  show (Vector.replicate tableSize 0)[slot] < bound
  simpa using h

theorem Below.record (h : table.Below bound) (slot : Slot) {pos : Nat} (hpos : pos < bound) :
    (table.record slot pos).Below bound := by
  intro slot'
  show (table.set slot pos)[(slot' : Nat)] < bound
  rw [Vector.getElem_set]
  split
  · exact hpos
  · exact h slot'

end Table

namespace Passage

theorem seeded_below (p : Passage) (h : 0 < p.start) : p.seeded.Below p.start := by
  have hgo : ∀ (table : Table) (pos : Nat), table.Below p.start →
      (seeded.go p table pos).Below p.start := by
    intro table pos
    fun_induction seeded.go p table pos with
    | case1 table pos hpos ih => exact fun hb => ih (hb.record _ (by omega))
    | case2 => exact id
  exact hgo _ _ (Table.below_empty h)

end Passage

/-! ### Stretching compares every byte -/

theorem le_repeatStart (text : Bytes) (offset : Nat) {lower pos : Nat} (h : lower ≤ pos) :
    lower ≤ repeatStart text offset lower pos := by
  induction pos with
  | zero => exact h
  | succ pos ih =>
      rw [repeatStart]
      split
      · next hstep => exact ih hstep.1
      · exact h

theorem repeats_from_repeatStart (text : Bytes) (offset lower : Nat) {pos i : Nat}
    (hle : repeatStart text offset lower pos ≤ i) (hlt : i < pos) :
    text.getD i 0 = text.getD (i - offset) 0 := by
  induction pos with
  | zero => omega
  | succ pos ih =>
      rw [repeatStart] at hle
      split at hle
      · next hstep =>
        rcases Nat.lt_or_ge i pos with hi | hi
        · exact ih hle hi
        · rw [show i = pos by omega]
          exact hstep.2
      · omega

theorem repeatStop_le (text : Bytes) (offset upper pos : Nat) :
    repeatStop text offset upper pos ≤ max pos upper := by
  fun_induction repeatStop text offset upper pos with
  | case1 pos hstep ih => omega
  | case2 => omega

theorem repeats_to_repeatStop (text : Bytes) (offset upper : Nat) {pos i : Nat}
    (hle : pos ≤ i) (hlt : i < repeatStop text offset upper pos) :
    text.getD i 0 = text.getD (i - offset) 0 := by
  revert hle hlt
  fun_induction repeatStop text offset upper pos with
  | case1 pos hstep ih =>
      intro hle hlt
      rcases Nat.eq_or_lt_of_le hle with rfl | hi
      · exact hstep.2
      · exact ih hi hlt
  | case2 => intro hle hlt; omega

/-- The four bytes that were compared are the same. -/
theorem getD_of_sameFour {text : Bytes} {a b k : Nat} (h : sameFour text a b = true) (hk : k < 4) :
    text.getD (a + k) 0 = text.getD (b + k) 0 := by
  simp only [sameFour, Bool.and_eq_true, beq_iff_eq] at h
  obtain ⟨⟨⟨h0, h1⟩, h2⟩, h3⟩ := h
  match k with
  | 0 => exact h0
  | 1 => exact h1
  | 2 => exact h2
  | 3 => exact h3

namespace Passage

/-! ### Repeats -/

/-- A repeat that may be written behind the first `written` bytes of the text. -/
structure Fits (p : Passage) (written : Nat) (r : Repeat) : Prop where
  written_le : written ≤ r.first
  length_ge : r.first + Sequence.minLength ≤ r.stop
  first_le : r.first + searchMargin ≤ p.text.size
  stop_le : r.stop + repeatMargin ≤ p.text.size
  offset_pos : 0 < r.offset
  offset_le_first : r.offset ≤ r.first
  offset_le : r.offset ≤ maxDistance
  /-- Each byte is the one `offset` bytes back. -/
  repeats : ∀ i, r.first ≤ i → i < r.stop → p.text.getD i 0 = p.text.getD (i - r.offset) 0

/-- A repeat is stretched between two bounds. -/
private theorem exists_stretch_eq {p : Passage} {written candidate pos : Nat}
    (hback : candidate < pos) (hwritten : written ≤ pos) :
    ∃ lower upper,
      p.stretch written candidate pos
        = { first := repeatStart p.text (pos - candidate) lower pos
            stop := repeatStop p.text (pos - candidate) upper (pos + 4)
            offset := pos - candidate } ∧
      written ≤ lower ∧ pos - candidate ≤ lower ∧ lower ≤ pos ∧ upper ≤ p.text.size - 6 := by
  have hstart : (if p.start ≤ candidate then p.start else 0) ≤ candidate := by
    split <;> omega
  exact ⟨_, _, rfl, by omega, by omega, by omega, Nat.min_le_left _ _⟩

/-- A stretched repeat fits, if the bytes it was found by are the same. -/
private theorem stretch_fits {p : Passage} {written candidate pos : Nat}
    (hback : candidate < pos) (hnear : pos - candidate ≤ maxDistance) (hwritten : written ≤ pos)
    (hpos : pos + searchMargin ≤ p.text.size) (hsame : sameFour p.text candidate pos = true) :
    p.Fits written (p.stretch written candidate pos) := by
  obtain ⟨lower, upper, heq, hlow, hoffset, hlower, hupper⟩ :=
    exists_stretch_eq (p := p) hback hwritten
  have hfirst := repeatStart_le p.text (pos - candidate) lower pos
  have hfirst' := le_repeatStart p.text (pos - candidate) hlower
  have hstop := le_repeatStop p.text (pos - candidate) upper (pos + 4)
  have hstop' := repeatStop_le p.text (pos - candidate) upper (pos + 4)
  simp only [searchMargin] at hpos
  rw [heq]
  refine ⟨?_, ?_, ?_, ?_, ?_, ?_, hnear, ?_⟩
  · show written ≤ repeatStart _ _ _ _
    omega
  · show repeatStart _ _ _ _ + 4 ≤ repeatStop _ _ _ _
    omega
  · show repeatStart _ _ _ _ + 12 ≤ _
    omega
  · show repeatStop _ _ _ _ + 6 ≤ _
    omega
  · show 0 < pos - candidate
    omega
  · show pos - candidate ≤ repeatStart _ _ _ _
    omega
  · intro i hge hlt
    -- Before `pos` and from four bytes behind it the bytes were compared one by one.
    rcases Nat.lt_or_ge i pos with hi | hi
    · exact repeats_from_repeatStart _ _ _ hge hi
    · rcases Nat.lt_or_ge i (pos + 4) with hi' | hi'
      · have hfour := getD_of_sameFour hsame (show i - pos < 4 by omega)
        rw [show candidate + (i - pos) = i - (pos - candidate) by omega,
          show pos + (i - pos) = i by omega] at hfour
        exact hfour.symm
      · exact repeats_to_repeatStop _ _ _ hi' hlt

theorem fits_of_repeatAt? {p : Passage} {written candidate pos : Nat} {r : Repeat}
    (h : p.repeatAt? written candidate pos = some r) (hback : candidate < pos)
    (hwritten : written ≤ pos) (hpos : pos + searchMargin ≤ p.text.size) : p.Fits written r := by
  rw [repeatAt?] at h
  split at h
  · next hfound =>
    rw [Option.some.injEq] at h
    subst h
    exact stretch_fits hback hfound.1 hwritten hpos hfound.2
  · simp at h

/-! ### Chains of repeats -/

/-- The sequences take the text from `first` to `stop`, each by a repeat that fits. -/
inductive Covers (p : Passage) (first : Nat) : List Sequence → Nat → Prop
  | nil : Covers p first [] first
  | snoc {sequences : List Sequence} {written : Nat} {r : Repeat}
      (h : Covers p first sequences written) (hr : p.Fits written r) :
      Covers p first (sequences ++ [p.sequence written r]) r.stop

/-- The block takes the text from `first` to its end. -/
def CoversAll (p : Passage) (first : Nat) (b : Block) : Prop :=
  ∃ last, p.Covers first b.sequences last ∧ b.tail = (p.text.extract last p.text.size).toList

private theorem walk_covers (p : Passage) (first : Nat) (table : Table) (found : List Sequence)
    (written missed pos : Nat) :
    p.Covers first found.reverse written → table.Below pos → written ≤ pos →
      p.CoversAll first (p.walk table found written missed pos) := by
  fun_induction walk p table found written missed pos with
  | case1 table found written missed pos hpos slot candidate table' r hr ih =>
      intro hfound hbelow hwritten
      have hfits : p.Fits written r :=
        fits_of_repeatAt? hr (hbelow slot) hwritten hpos
      have hstop : pos < r.stop := lt_stop_of_repeatAt? hr
      have htable : table'.Below r.stop :=
        (hbelow.mono (Nat.le_of_lt hstop)).record slot hstop
      refine ih ?_ (htable.record _ (by omega)) (Nat.le_refl _)
      rw [List.reverse_cons]
      exact hfound.snoc hfits
  | case2 table found written missed pos hpos slot candidate table' hr ih =>
      intro hfound hbelow hwritten
      have hstride := stride_pos missed
      exact ih hfound ((hbelow.mono (by omega)).record slot (by omega)) (by omega)
  | case3 table found written missed pos hpos =>
      intro hfound _ _
      exact ⟨written, hfound, rfl⟩

/-- **The block of a passage takes the text from its start to its end.** -/
theorem block_covers (p : Passage) : p.CoversAll p.start p.block := by
  unfold block
  split
  · exact ⟨p.start, .nil, rfl⟩
  · split
    · next hstart =>
      rw [hstart]
      have hbelow : p.seeded.Below 1 := by
        have hseeded : p.seeded = .empty := by
          rw [seeded, seeded.go, if_neg (by omega)]
        rw [hseeded]
        exact Table.below_empty (by omega)
      exact walk_covers p 0 _ [] 0 0 1 .nil (hbelow.record _ (by omega)) (by omega)
    · next hstart =>
      exact walk_covers p p.start _ [] p.start 0 p.start .nil
        (p.seeded_below (by omega)) (Nat.le_refl _)

/-- An input that is too short to be searched has no sequences. -/
theorem sequences_block_eq_nil {p : Passage} (h : p.size < minSearchedInput) :
    p.block.sequences = [] := by
  rw [block, if_pos h]

end Passage

end WindowedLz4
