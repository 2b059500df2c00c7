/-
Configurations and ledgers come back from their stored forms.

Both are records of counts, written with their names in a fixed order.  A record as
written is one of the texts of an object that hold it (`ObjectText.text_ofRecord`), and all of
these are read alike: the names may stand in any order, with blanks and escapes wherever
these may be, among members of any other name with values of any kind.  A text that
lacks one of the names, or has it twice, is refused (`Stores`).
-/
import WindowedLz4.Json.Stored
import WindowedLz4.Proofs.Json.Slots
namespace WindowedLz4

namespace Json

/-! ### Records as written -/

/-- A name that is spelled as it is. -/
def Plain (name : List Char) : Prop :=
  ∀ c ∈ name, 0x20 ≤ c.toNat ∧ c ≠ '"' ∧ c ≠ '\\'

instance (name : List Char) : Decidable (Plain name) :=
  List.decidableBAll _ name

theorem Plain.body {name : List Char} (h : Plain name) : Body (name.map .plain) name := by
  induction name with
  | nil => exact .nil
  | cons c name ih =>
      obtain ⟨hcontrol, hquote, hescape⟩ := h c List.mem_cons_self
      exact .plain hcontrol hquote hescape (ih fun c hc => h c (List.mem_cons_of_mem _ hc))

theorem spells_plain (name : List Char) : Spells (name.map .plain) name := by
  induction name with
  | nil => exact .nil
  | cons c name ih => exact .plain ih

/-- A member of a record as written. -/
def Member.ofCount (name : String) (k : Nat) (h : Plain name.toList) : Member where
  raw := name.toList
  value := Nat.toDigits 10 k
  name := name.toList
  spelled := ⟨_, h.body, spells_plain _⟩
  derives := .numeral (.toDigits k)

theorem Member.text_ofCount (name : String) (k : Nat) (h : Plain name.toList) :
    (ofCount name k h).text = writeMember name k := by
  simp [text, ofCount, writeMember]

section

variable {n : Nat} {names : Vector String n}

/-- A record as written. -/
def ObjectText.ofRecord (names : Vector String n) (values : Vector Nat n)
    (hplain : ∀ i : Fin n, Plain (names.get i).toList) : ObjectText where
  members := (List.finRange n).map fun i => .ofCount (names.get i) (values.get i) (hplain i)

theorem ObjectText.text_ofRecord (values : Vector Nat n)
    (hplain : ∀ i : Fin n, Plain (names.get i).toList) :
    (ofRecord names values hplain).text = writeRecord names values := by
  have hmembers : (ofRecord names values hplain).members.map Member.text
      = (names.zip values).toList.map fun p => writeMember p.1 p.2 := by
    refine List.ext_getElem (by simp [ofRecord]) fun i _ _ => ?_
    simp only [ofRecord, List.map_map, List.getElem_map, List.getElem_finRange, Function.comp_apply,
      Member.text_ofCount, Vector.getElem_toList, Vector.getElem_zip]
    rfl
  rw [text, membersText, hmembers]
  rfl

theorem ObjectText.hold_ofRecord (hnames : Function.Injective names.get)
    (values : Vector Nat n) (hplain : ∀ i : Fin n, Plain (names.get i).toList) :
    Hold names values (ofRecord names values hplain).members := by
  intro i
  have hname : ∀ j : Fin n,
      decide (String.ofList (Member.ofCount (names.get j) (values.get j) (hplain j)).name
          = names.get i) = decide (j = i) := by
    intro j
    rw [Member.ofCount, String.ofList_toList]
    exact decide_eq_decide.mpr ⟨fun h => hnames h, fun h => h ▸ rfl⟩
  have hone : (List.finRange n).count i = 1 :=
    List.count_eq_one_of_mem (List.nodup_finRange n) (List.mem_finRange i)
  simp only [valuesOf, ofRecord, List.filter_map, Function.comp_def, hname, List.filter_eq, hone]
  rfl

/-! ### Stored forms -/

/-- A type whose values are written as records of counts with these names, and are read from
whatever objects hold them. -/
structure Stores {α : Type} (names : Vector String n) (counts : α → Vector Nat n)
    (write : α → String) (read : String → Except Fault α) : Prop where
  /-- What was written is read back. -/
  read_write : ∀ x, (∀ i : Fin n, (counts x).get i ≤ maxWord) → read (write x) = .ok x
  /-- An object is read as a value if and only if its members have each name once, with the count
  of the value, and these fit a word. -/
  read_eq_ok : ∀ (o : ObjectText) x, read (.ofList o.text) = .ok x ↔
    Hold names (counts x) o.members ∧ ∀ i : Fin n, (counts x).get i ≤ maxWord
  /-- An object that lacks a name or has it twice is refused, and if the values it has are counts
  then that is all that is wrong with it. -/
  read_refuses : ∀ (o : ObjectText) (i : Fin n), (valuesOf (names.get i) o.members).length ≠ 1 →
    ∃ fault, read (.ofList o.text) = .error fault ∧ (Counted names o.members → fault = .mismatched)

/-- **A type is stored as its records are**, if its values and their counts determine each other. -/
theorem stores_of_record {α : Type} {counts : α → Vector Nat n} {write : α → String}
    {read : String → Except Fault α} (ofCounts : Vector Nat n → α)
    (hwrite : ∀ x, write x = .ofList (writeRecord names (counts x)))
    (hread : ∀ text, read text = (readRecord names text.toList).map ofCounts)
    (hcounts : ∀ values, counts (ofCounts values) = values) (hof : ∀ x, ofCounts (counts x) = x)
    (hnames : Function.Injective names.get)
    (hplain : ∀ i : Fin n, Plain (names.get i).toList) : Stores names counts write read := by
  have htext : ∀ o : ObjectText,
      read (.ofList o.text) = (collect names o.members).map ofCounts := by
    intro o
    rw [hread, String.toList_ofList, readRecord_text]
  have hok : ∀ (o : ObjectText) x, read (.ofList o.text) = .ok x ↔
      Hold names (counts x) o.members ∧ ∀ i : Fin n, (counts x).get i ≤ maxWord := by
    intro o x
    rw [htext, ← collect_eq_ok hnames]
    constructor
    · intro h
      cases hcollect : collect names o.members with
      | error fault =>
          rw [hcollect] at h
          cases h
      | ok values =>
          rw [hcollect] at h
          rw [← Except.ok.inj h, hcounts]
    · intro h
      rw [h]
      exact congrArg Except.ok (hof x)
  refine ⟨fun x hword => ?_, hok, fun o i hi => ?_⟩
  · rw [hwrite, ← ObjectText.text_ofRecord (counts x) hplain]
    exact (hok _ x).mpr ⟨ObjectText.hold_ofRecord hnames (counts x) hplain, hword⟩
  · rw [htext]
    cases hcollect : collect names o.members with
    | error fault =>
        refine ⟨fault, rfl, fun hcounted => ?_⟩
        exact Except.error.inj (hcollect.symm.trans (collect_mismatched hnames hcounted hi))
    | ok values =>
        have hheld := ((collect_eq_ok hnames _ values).mp hcollect).1 i
        rw [hheld] at hi
        exact absurd rfl hi

end

end Json

/-- The two sizes, in the order of their names. -/
def WindowConfig.sizes (config : WindowConfig) : Vector Nat 2 :=
  #v[config.dictionarySize].push config.maxMessageSize

/-- The three counts, in the order of their names. -/
def Ledger.counts (l : Ledger) : Vector Nat 3 :=
  (#v[l.calls].push l.sourceBytes).push l.outputBytes

theorem WindowConfig.stores :
    Json.Stores fieldNames sizes toJson ofJson? := by
  have hnames : Function.Injective fieldNames.get := by
    intro i j
    revert i j
    decide
  refine Json.stores_of_record (fun values => ⟨values[0], values[1]⟩) (fun _ => rfl)
    (fun text => ?_) (fun values => ?_) (fun _ => rfl) hnames (by decide)
  · rw [ofJson?]
    cases Json.readRecord fieldNames text.toList with
    | error fault => rfl
    | ok values => rfl
  · ext i hi
    obtain rfl | rfl : i = 0 ∨ i = 1 := by omega
    · rfl
    · rfl

theorem Ledger.stores :
    Json.Stores fieldNames counts toJson ofJson? := by
  have hnames : Function.Injective fieldNames.get := by
    intro i j
    revert i j
    decide
  refine Json.stores_of_record (fun values => ⟨values[0], values[1], values[2]⟩) (fun _ => rfl)
    (fun text => ?_) (fun values => ?_) (fun _ => rfl) hnames (by decide)
  · rw [ofJson?]
    cases Json.readRecord fieldNames text.toList with
    | error fault => rfl
    | ok values => rfl
  · ext i hi
    obtain rfl | rfl | rfl : i = 0 ∨ i = 1 ∨ i = 2 := by omega
    · rfl
    · rfl
    · rfl

/-- **Configurations and ledgers are read from every object that holds them, and only from
these.** -/
theorem stored_forms :
    Json.Stores WindowConfig.fieldNames WindowConfig.sizes WindowConfig.toJson
        WindowConfig.ofJson? ∧
      Json.Stores Ledger.fieldNames Ledger.counts Ledger.toJson Ledger.ofJson? :=
  ⟨WindowConfig.stores, Ledger.stores⟩

/-! ### One text -/

namespace Json

/-- A member of another name, spelled in two halves, and of another kind. -/
def emptyFace : Member where
  raw := "\\ud83d\\ude00".toList
  lead := [' ']
  value := ['[', '\x7b', '\x7d', ']']
  after := [' ']
  name := ['😀']
  spelled := ⟨_, .number (i := 13) (j := 8) (k := 3) (l := 13) (by decide) (by decide) (by decide)
    (by decide) (.number (i := 13) (j := 14) (k := 0) (l := 0) (by decide) (by decide) (by decide)
    (by decide) .nil), @Spells.halves 0x3d 0x200 _ _ (by decide) (by decide) .nil⟩
  derives := .filled (c := .array)
    (.single (@Derives.element [] _ [] blank_nil blank_nil (.empty .object blank_nil)))

/-- The size of a dictionary, with the first letter of its name escaped. -/
def escapedSize : Member where
  raw := "\\u0064ictionary_size".toList
  gap := [' ']
  value := Nat.toDigits 10 4096
  after := ['\n']
  name := "dictionary_size".toList
  spelled := ⟨_, .number (i := 0) (j := 0) (k := 6) (l := 4) (by decide) (by decide) (by decide)
    (by decide) (@Plain.body "ictionary_size".toList (by decide)),
    .escaped (by decide) (spells_plain _)⟩
  derives := .numeral (.toDigits 4096)

/-- A configuration with its sizes in the other order and a member between them. -/
def reordered : ObjectText where
  before := [' ']
  members := [.ofCount "max_message_size" 256 (by decide), emptyFace, escapedSize]

end Json

/-- The other order, blanks, escapes and a member of another name do not show in what is read. -/
theorem stored_forms_reordered :
    Json.reordered.text
      = " \x7b\"max_message_size\":256,\"\\ud83d\\ude00\": [\x7b\x7d] ,".toList
        ++ "\"\\u0064ictionary_size\" :4096\n\x7d".toList ∧
    WindowConfig.ofJson? (.ofList Json.reordered.text) = .ok ⟨4096, 256⟩ := by
  refine ⟨by decide, ?_⟩
  exact (stored_forms.1.read_eq_ok Json.reordered ⟨4096, 256⟩).mpr ⟨by decide, by decide⟩

end WindowedLz4
