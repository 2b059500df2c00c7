/-
Records are read from the members of an object, wherever they stand.

The reader of a record goes through the text once.  What it does with the text of an
object is told by the members alone (`collect`): a member of another name leaves the
slots as they are, and a member of the record fills the slot of its name, unless the
slot is full or the value is no count (`takeMember`).  Blanks do not show
(`readRecord_text`).

A value is a count if it is the digits of a word.  It is read then, and any other value
is refused, whatever stands around it (`Derives.exists_readsAs`).
-/
import WindowedLz4.Proofs.Json.Skip
namespace WindowedLz4.Json

/-! ### Counts -/

/-- What the reader of counts makes of a value, wherever it stands. -/
def ReadsAs (value : List Char) (r : Except Fault Nat) : Prop :=
  ∀ lead rest, Blank lead → Ends rest →
    readCount (lead ++ (value ++ rest)) = r.map (·, rest)

/-- The digits of a number are not the text of anything but a numeral. -/
theorem toDigits_exists_cons (k : Nat) : ∃ c t, Nat.toDigits 10 k = c :: t ∧ c.isDigit :=
  (wholeText_toDigits k).1.exists_cons

theorem ReadsAs.opening (c : Container) (s : List Char) :
    ReadsAs (c.opening :: s) (.error .mismatched) := by
  intro lead rest hlead _
  rw [readCount, hlead.skipBlanks_append, List.cons_append, skipBlanks_opening]
  simp only [Container.ofOpening?_opening]
  rfl

theorem ReadsAs.word {w : List Char} (h : w ∈ words) : ReadsAs w (.error .mismatched) := by
  intro lead rest hlead _
  have hskip := skipScalar_word h rest
  obtain ⟨c, t, rfl, hc⟩ := exists_cons_of_mem_words h
  obtain ⟨hblank, hopening, -⟩ := plain_head (.inl (List.mem_append_left ['-'] hc))
  have hother : ∀ c ∈ ['n', 't', 'f'], c ≠ '"' ∧ ¬ (c = '-' ∨ c.isDigit) := by simp
  obtain ⟨hquote, hnumeral⟩ := hother c hc
  rw [readCount, hlead.skipBlanks_append, List.cons_append, skipBlanks_cons hblank]
  simp only [hopening]
  rw [if_neg (by simp), if_neg hquote, if_neg hnumeral, ← List.cons_append, hskip]
  rfl

theorem ReadsAs.numeral {n : Numeral} {s : List Char} (h : Written n s) : ReadsAs s n.count := by
  intro lead rest hlead hrest
  have hscan := h.scanNumeral_append hrest
  obtain ⟨c, t, rfl, hc⟩ := h.exists_cons
  obtain ⟨hblank, hopening, -⟩ := plain_head (hc.imp_left fun hc => by simp [hc])
  have hquote : c ≠ '"' := by
    rintro rfl
    exact absurd hc (by decide)
  rw [readCount, hlead.skipBlanks_append, List.cons_append, skipBlanks_cons hblank]
  simp only [hopening]
  rw [if_neg (by simp), if_neg hquote, if_pos hc, ← List.cons_append, hscan]
  show (n.count >>= _) = _
  cases n.count with
  | error fault => rfl
  | ok k => rfl

/-- A string is no count.  It is read to its end all the same, and may hold half a character. -/
theorem ReadsAs.string {units : List StringUnit} {raw : List Char} (h : Body units raw) :
    ∃ fault, ReadsAs ('"' :: raw ++ ['"']) (.error fault) := by
  have hread : ∀ rest, readString (raw ++ '"' :: rest)
      = (joinUnits .illFormed [] units).map (·, rest) := by
    intro rest
    rw [readString, scanString_body h, StringScan.text]
    cases joinUnits .illFormed [] units with
    | error fault => rfl
    | ok name => rfl
  have hcount : ∀ {lead rest : List Char}, Blank lead →
      readCount (lead ++ ('"' :: raw ++ ['"'] ++ rest))
        = (joinUnits .illFormed [] units).map (·, rest) >>= fun _ => .error .mismatched := by
    intro lead rest hlead
    rw [readCount, hlead.skipBlanks_append, List.append_assoc, List.cons_append,
      skipBlanks_cons (by decide)]
    rw [← hread]
    rfl
  cases hjoin : joinUnits .illFormed [] units with
  | error fault =>
      refine ⟨fault, fun lead rest hlead _ => ?_⟩
      rw [hcount hlead, hjoin]
      rfl
  | ok name =>
      refine ⟨.mismatched, fun lead rest hlead _ => ?_⟩
      rw [hcount hlead, hjoin]
      rfl

/-- **The values that are read as counts are the digits of words.** -/
theorem Derives.exists_readsAs {value : List Char} (h : Derives .value value) :
    ∃ r, ReadsAs value r ∧ ∀ k, r = .ok k ↔ value = Nat.toDigits 10 k ∧ k ≤ maxWord := by
  -- Only a numeral begins as the digits of a number do.
  have hother : ∀ {c : Char} {s : List Char} {fault : Fault}, ¬ c.isDigit → ∀ k,
      Except.error fault = .ok k ↔ c :: s = Nat.toDigits 10 k ∧ k ≤ maxWord := by
    intro c s fault hc k
    refine iff_of_false (by simp) ?_
    rintro ⟨hdigits, -⟩
    obtain ⟨c', t, hcons, hdigit⟩ := toDigits_exists_cons k
    obtain ⟨rfl, -⟩ := List.cons.inj (hdigits.trans hcons)
    exact hc hdigit
  cases h with
  | word h =>
      have hread := ReadsAs.word h
      obtain ⟨c, t, rfl, hc⟩ := exists_cons_of_mem_words h
      have hletter : ∀ c ∈ ['n', 't', 'f'], ¬ c.isDigit := by simp
      exact ⟨_, hread, hother (hletter c hc)⟩
  | numeral h => exact ⟨_, .numeral h, h.count_iff⟩
  | string h =>
      obtain ⟨fault, hread⟩ := ReadsAs.string h
      exact ⟨_, hread, hother (by decide)⟩
  | empty c h =>
      exact ⟨_, .opening c _, hother (by cases c <;> decide)⟩
  | @filled c s h =>
      exact ⟨_, .opening c _, hother (by cases c <;> decide)⟩

/-- The count that a value is. -/
def countOf (value : List Char) : Except Fault Nat :=
  (readCount value).map Prod.fst

theorem ReadsAs.countOf_eq {value : List Char} {r : Except Fault Nat} (h : ReadsAs value r) :
    countOf value = r := by
  have halone := h [] [] blank_nil ends_nil
  rw [List.nil_append, List.append_nil] at halone
  rw [countOf, halone]
  cases r with
  | error fault => rfl
  | ok k => rfl

/-- A count is read with the blanks before it, and nothing behind it. -/
theorem Derives.readsAs_countOf {value : List Char} (h : Derives .value value) :
    ReadsAs value (countOf value) := by
  obtain ⟨r, hread, -⟩ := h.exists_readsAs
  rwa [hread.countOf_eq]

theorem Derives.countOf_eq_ok {value : List Char} (h : Derives .value value) (k : Nat) :
    countOf value = .ok k ↔ value = Nat.toDigits 10 k ∧ k ≤ maxWord := by
  obtain ⟨r, hread, hr⟩ := h.exists_readsAs
  rw [hread.countOf_eq]
  exact hr k

/-! ### Members -/

section

variable {n : Nat} {names : Vector String n}

/-- What a member does to the slots. -/
def takeMember (names : Vector String n) (slots : Vector (Option Nat) n) (m : Member) :
    Except Fault (Vector (Option Nat) n) :=
  match names.finIdxOf? (String.ofList m.name) with
  | none => .ok slots
  | some i =>
    if (slots.get i).isSome then .error .mismatched
    else (countOf m.value).map fun k => slots.set i.val (some k) i.isLt

/-- What follows the last member up to the end of the object. -/
def laterText (members : List Member) (rest : List Char) : List Char :=
  (members.flatMap fun m => ',' :: m.text) ++ '\x7d' :: rest

theorem membersText_cons (m : Member) (members : List Member) (rest : List Char) :
    membersText (m :: members) ++ '\x7d' :: rest = m.text ++ laterText members rest := by
  induction members generalizing m with
  | nil => simp [membersText, laterText]
  | cons m' members ih =>
      have hmembers : membersText (m :: m' :: members)
          = m.text ++ ',' :: membersText (m' :: members) := by
        simp [membersText]
      rw [hmembers, List.append_assoc, List.cons_append, ih m']
      simp [laterText]

theorem ends_laterText (members : List Member) (rest : List Char) :
    Ends (laterText members rest) := by
  cases members with
  | nil => exact ends_cons (by decide) _
  | cons m members => exact ends_cons (by decide) _

/-- A member is read from its name to its value. -/
theorem readMember_append (slots : Vector (Option Nat) n) (m : Member) {rest : List Char}
    (hrest : Ends rest) :
    readMember names slots
        ('"' :: (m.raw ++ '"' :: (m.gap ++ ':' :: (m.lead ++ (m.value ++ (m.after ++ rest))))))
      = (takeMember names slots m).map (·, m.after ++ rest) := by
  have hends : Ends (m.after ++ rest) := m.blank_after.ends_append hrest
  rw [readMember, if_pos rfl, m.spelled.readString_eq]
  show (match names.finIdxOf? (String.ofList m.name) with | none => _ | some i => _) = _
  rw [takeMember, skipColon_append m.blank_gap]
  cases names.finIdxOf? (String.ofList m.name) with
  | none =>
      show (skipValue _ >>= _) = _
      rw [m.derives.skipValue_append m.blank_lead hends]
      rfl
  | some i =>
      show (if (slots.get i).isSome then Except.error Fault.mismatched else _) = _
      simp only
      split
      · rfl
      · show (readCount _ >>= _) = _
        rw [m.derives.readsAs_countOf _ _ m.blank_lead hends]
        cases countOf m.value with
        | error fault => rfl
        | ok k => rfl

/-- The first character that is no blank tells whether there is one more member. -/
theorem readMembers_eq (slots : Vector (Option Nat) n) (first : Bool) (s : List Char) :
    readMembers names slots first s = match skipBlanks s with
      | [] => .error .truncated
      | c :: rest =>
        if c = '\x7d' then .ok (slots, rest)
        else if !first && c != ',' then .error .illFormed
        else readMember names slots (if first then c :: rest else skipBlanks rest) >>= fun next =>
          readMembers names next.1 false next.2 := by
  rw [readMembers]
  split
  · next h => conv => rhs; rw [h]
  · next c rest h =>
    conv => rhs; rw [h]
    simp only
    split
    · rfl
    · split
      · rfl
      · split
        · next hmember => rw [hmember]; rfl
        · next hmember =>
          conv => rhs; rw [hmember]
          rfl

/-- The object ends. -/
theorem readMembers_end (slots : Vector (Option Nat) n) (first : Bool) {s rest : List Char}
    (h : skipBlanks s = '\x7d' :: rest) : readMembers names slots first s = .ok (slots, rest) := by
  rw [readMembers_eq, h]
  exact if_pos rfl

theorem Member.skipBlanks_text (m : Member) (rest : List Char) :
    skipBlanks (m.text ++ rest)
      = '"' :: (m.raw ++ '"' :: (m.gap ++ ':' :: (m.lead ++ (m.value ++ (m.after ++ rest))))) := by
  simp only [text, List.append_assoc, List.cons_append]
  rw [m.blank_before.skipBlanks_append, skipBlanks_cons (by decide)]

/-- A member follows the opening brace. -/
theorem readMembers_first (slots : Vector (Option Nat) n) (m : Member) {s rest : List Char}
    (hrest : Ends rest) (h : skipBlanks s = skipBlanks (m.text ++ rest)) :
    readMembers names slots true s = takeMember names slots m >>= fun slots =>
      readMembers names slots false (m.after ++ rest) := by
  rw [readMembers_eq, h, m.skipBlanks_text]
  simp only [if_true]
  rw [readMember_append slots m hrest]
  cases takeMember names slots m with
  | error fault => rfl
  | ok slots => rfl

/-- A member follows a comma. -/
theorem readMembers_next (slots : Vector (Option Nat) n) (m : Member) {s rest : List Char}
    (hrest : Ends rest) (h : skipBlanks s = ',' :: (m.text ++ rest)) :
    readMembers names slots false s = takeMember names slots m >>= fun slots =>
      readMembers names slots false (m.after ++ rest) := by
  rw [readMembers_eq, h]
  simp only [Bool.false_eq_true, if_false]
  rw [m.skipBlanks_text, readMember_append slots m hrest]
  cases takeMember names slots m with
  | error fault => rfl
  | ok slots => rfl

/-- **Behind a member the later ones are taken in their order**, up to the end of the object. -/
theorem readMembers_later (members : List Member) {rest : List Char} :
    ∀ {slots : Vector (Option Nat) n} {after : List Char}, Blank after →
      readMembers names slots false (after ++ laterText members rest)
        = (members.foldlM (takeMember names) slots).map (·, rest) := by
  induction members with
  | nil =>
      intro slots after hafter
      exact readMembers_end slots false
        ((hafter.skipBlanks_append _).trans (skipBlanks_cons (by decide) rest))
  | cons m members ih =>
      intro slots after hafter
      have hcomma : skipBlanks (after ++ laterText (m :: members) rest)
          = ',' :: (m.text ++ laterText members rest) := by
        rw [hafter.skipBlanks_append, laterText, List.flatMap_cons, List.append_assoc,
          List.cons_append, skipBlanks_cons (by decide)]
        rfl
      rw [readMembers_next slots m (ends_laterText members rest) hcomma, List.foldlM_cons]
      cases takeMember names slots m with
      | error fault => rfl
      | ok slots => exact ih m.blank_after

/-- **The members of an object are taken in their order.** -/
theorem readMembers_append (slots : Vector (Option Nat) n) {gap : List Char} (hgap : Blank gap)
    (members : List Member) (rest : List Char) :
    readMembers names slots true (gap ++ membersText members ++ '\x7d' :: rest)
      = (members.foldlM (takeMember names) slots).map (·, rest) := by
  rw [List.append_assoc]
  cases members with
  | nil =>
      exact readMembers_end slots true
        ((hgap.skipBlanks_append _).trans (skipBlanks_cons (by decide) rest))
  | cons m members =>
      rw [membersText_cons,
        readMembers_first slots m (ends_laterText members rest) (hgap.skipBlanks_append _),
        List.foldlM_cons]
      cases takeMember names slots m with
      | error fault => rfl
      | ok slots => exact readMembers_later members m.blank_after

/-- The record that the members of an object hold. -/
def collect (names : Vector String n) (members : List Member) : Except Fault (Vector Nat n) :=
  members.foldlM (takeMember names) (.replicate n none) >>= filled

/-- **An object is read as its members are collected**, whatever blanks stand in it. -/
theorem readRecord_text (names : Vector String n) (o : ObjectText) :
    readRecord names o.text = collect names o.members := by
  rw [readRecord, ObjectText.text, List.append_assoc, o.blank_before.skipBlanks_append,
    List.cons_append, skipBlanks_cons (by decide)]
  show (readMembers names _ true _ >>= _) = _
  rw [readMembers_append _ o.blank_gap, collect]
  have hend : (skipBlanks o.after).isEmpty := by
    have h := o.blank_after.skipBlanks_append []
    rw [List.append_nil] at h
    rw [h]
    rfl
  cases o.members.foldlM (takeMember names) (.replicate n none) with
  | error fault => rfl
  | ok slots =>
      show (filled slots >>= _) = filled slots
      cases filled slots with
      | error fault => rfl
      | ok values => exact if_pos hend

end

end WindowedLz4.Json
