/-
Values are skipped to their end.

The reader that skips a value keeps the open containers in a list and reads on.  What it
does at a place is one equation for each thing it can meet there, and the grammar says
which of them it meets.  So a value takes the reader from where a value is due to what
follows it, and the items of a container from the first of them to what follows the last
(`Derives.skips`).  The induction is on the derivation, and the containers around it are
any: nesting costs nothing.
-/
import WindowedLz4.Proofs.Json.Numeral
import WindowedLz4.Proofs.Json.Scan
namespace WindowedLz4.Json

/-! ### One step -/

variable {around : List Container} {c : Container} {s rest rest' : List Char}

@[simp] theorem Container.ofOpening?_opening (c : Container) :
    Container.ofOpening? c.opening = some c := by
  cases c <;> rfl

/-- At a value, the first character that is no blank tells what it is. -/
theorem skipFrom_value (around : List Container) (s : List Char) :
    skipFrom around .value s = match skipBlanks s with
      | [] => .error .truncated
      | c :: rest =>
        match Container.ofOpening? c with
        | some inner =>
          if (skipBlanks rest).head? = some inner.closing then
            skipFrom around .follow (skipBlanks rest).tail
          else skipFrom (inner :: around) inner.item rest
        | none => skipScalar (c :: rest) >>= skipFrom around .follow := by
  rw [skipFrom]
  split
  · next h => conv => rhs; rw [h]
  · next c rest h =>
    conv => rhs; rw [h]
    simp only
    cases Container.ofOpening? c with
    | some inner => rfl
    | none =>
        simp only
        split
        · next hscalar => rw [hscalar]; rfl
        · next hscalar =>
          conv => rhs; rw [hscalar]
          rfl

/-- At a member, its name and its colon are read. -/
theorem skipFrom_member (around : List Container) (s : List Char) :
    skipFrom around .member s = match skipBlanks s with
      | [] => .error .truncated
      | c :: rest => skipName (c :: rest) >>= skipFrom around .value := by
  rw [skipFrom]
  split
  · next h => conv => rhs; rw [h]
  · next h =>
    conv => rhs; rw [h]
    simp only
    split
    · next hname => rw [hname]; rfl
    · next hname =>
      conv => rhs; rw [hname]
      rfl

/-- Behind a value, the container goes on or ends. -/
theorem skipFrom_follow (inner : Container) (outer : List Container) (s : List Char) :
    skipFrom (inner :: outer) .follow s = match skipBlanks s with
      | [] => .error .truncated
      | c :: rest =>
        if c = inner.closing then skipFrom outer .follow rest
        else if c = ',' then skipFrom (inner :: outer) inner.item rest
        else .error .illFormed := by
  rw [skipFrom]
  split
  · next h => conv => rhs; rw [h]
  · next h => conv => rhs; rw [h]

/-- The innermost container ends. -/
theorem skipFrom_close (h : skipBlanks s = c.closing :: rest) :
    skipFrom (c :: around) .follow s = skipFrom around .follow rest := by
  rw [skipFrom_follow, h]
  exact if_pos rfl

/-- The innermost container goes on. -/
theorem skipFrom_comma (h : skipBlanks s = ',' :: rest) :
    skipFrom (c :: around) .follow s = skipFrom (c :: around) c.item rest := by
  have hclosing : ',' ≠ c.closing := by cases c <;> decide
  rw [skipFrom_follow, h]
  exact (if_neg hclosing).trans (if_pos rfl)

/-- A name with its colon stands before its value. -/
theorem skipFrom_name (h : skipBlanks s = '"' :: rest)
    (hname : skipName ('"' :: rest) = .ok rest') :
    skipFrom around .member s = skipFrom around .value rest' := by
  rw [skipFrom_member, h]
  simp only
  rw [hname]
  rfl

/-- A container is empty. -/
theorem skipFrom_empty (h : skipBlanks s = c.opening :: rest)
    (hrest : skipBlanks rest = c.closing :: rest') :
    skipFrom around .value s = skipFrom around .follow rest' := by
  rw [skipFrom_value, h]
  simp only [Container.ofOpening?_opening, hrest, List.head?_cons, List.tail_cons, if_true]

/-- A container is opened that is not empty. -/
theorem skipFrom_opening (h : skipBlanks s = c.opening :: rest)
    (hrest : (skipBlanks rest).head? ≠ some c.closing) :
    skipFrom around .value s = skipFrom (c :: around) c.item rest := by
  rw [skipFrom_value, h]
  simp only [Container.ofOpening?_opening]
  exact if_neg hrest

/-- A word, a numeral or a string. -/
theorem skipFrom_scalar {c : Char} (h : skipBlanks s = c :: rest)
    (hc : Container.ofOpening? c = none) (hscalar : skipScalar (c :: rest) = .ok rest') :
    skipFrom around .value s = skipFrom around .follow rest' := by
  rw [skipFrom_value, h]
  simp only [hc, hscalar]
  rfl

/-- Blanks before a value do not show. -/
theorem skipFrom_value_congr (h : skipBlanks s = skipBlanks rest) :
    skipFrom around .value s = skipFrom around .value rest := by
  rw [skipFrom_value, skipFrom_value, h]

/-- Nor do blanks behind a value, inside a container. -/
theorem skipFrom_follow_congr (h : skipBlanks s = skipBlanks rest) :
    skipFrom (c :: around) .follow s = skipFrom (c :: around) .follow rest := by
  rw [skipFrom_follow, skipFrom_follow, h]

/-! ### The pieces of a value -/

/-- A word is skipped. -/
theorem skipScalar_word {w : List Char} (h : w ∈ words) (rest : List Char) :
    skipScalar (w ++ rest) = .ok rest := by
  simp only [words, List.mem_cons, List.not_mem_nil, or_false] at h
  rcases h with rfl | rfl | rfl
  · exact skipWord_append _ rest
  · exact skipWord_append _ rest
  · exact skipWord_append _ rest

theorem exists_cons_of_mem_words {w : List Char} (h : w ∈ words) :
    ∃ c t, w = c :: t ∧ c ∈ ['n', 't', 'f'] := by
  simp only [words, List.mem_cons, List.not_mem_nil, or_false] at h
  rcases h with rfl | rfl | rfl
  · exact ⟨'n', _, rfl, by decide⟩
  · exact ⟨'t', _, rfl, by decide⟩
  · exact ⟨'f', _, rfl, by decide⟩

/-- A string is skipped without asking what it spells. -/
theorem skipScalar_body {units : List StringUnit} {raw : List Char} (h : Body units raw)
    (rest : List Char) : skipScalar ('"' :: (raw ++ '"' :: rest)) = .ok rest := by
  rw [skipScalar, scanString_body h]

/-- A numeral begins with a digit or a minus. -/
theorem Written.exists_cons {n : Numeral} {s : List Char} (h : Written n s) :
    ∃ c t, s = c :: t ∧ (c = '-' ∨ c.isDigit) := by
  cases h with
  | @parts negative whole fraction pointed marked exponent hwhole hfraction hexponent =>
      obtain ⟨c, digits, rfl, hc⟩ := hwhole.1.exists_cons
      cases negative with
      | true => exact ⟨'-', _, rfl, .inl rfl⟩
      | false => exact ⟨c, _, rfl, .inr hc⟩

theorem skipScalar_numeral {n : Numeral} {s : List Char} (h : Written n s) (hrest : Ends rest) :
    skipScalar (s ++ rest) = .ok rest := by
  have hscan := h.scanNumeral_append hrest
  obtain ⟨c, t, rfl, hc⟩ := h.exists_cons
  have hother : c ≠ 'n' ∧ c ≠ 't' ∧ c ≠ 'f' ∧ c ≠ '"' := by
    refine ⟨?_, ?_, ?_, ?_⟩
    all_goals
      rintro rfl
      exact absurd hc (by decide)
  simp_all [skipScalar]

/-! ### The first character -/

/-- The text goes on with no closing character. -/
def Opens (s : List Char) : Prop :=
  ∀ c : Container, (skipBlanks s).head? ≠ some c.closing

theorem opens_cons {c : Char} (hblank : isBlank c = false) (hc : c ∉ [']', '\x7d'])
    (s : List Char) : Opens (c :: s) := by
  intro inner h
  rw [skipBlanks_cons hblank] at h
  obtain rfl := Option.some.inj h
  cases inner with
  | array => exact hc (by decide)
  | object => exact hc (by decide)

theorem Blank.opens_append {s t : List Char} (h : Blank s) (ht : Opens t) : Opens (s ++ t) := by
  intro inner
  rw [h.skipBlanks_append]
  exact ht inner

/-- A digit is no character with a meaning of its own. -/
theorem not_isDigit_of_mem : ∀ c ∈ [' ', '\t', '\n', '\r', '[', ']', '\x7b', '\x7d'],
    ¬ c.isDigit := by
  simp

theorem isBlank_of_isDigit {c : Char} (h : c.isDigit) : isBlank c = false := by
  cases hblank : isBlank c with
  | false => rfl
  | true =>
      have hmem := List.mem_append_left ['[', ']', '\x7b', '\x7d'] ((isBlank_iff c).mp hblank)
      exact absurd h (not_isDigit_of_mem c hmem)

/-- The first character of a word or a numeral is no blank, and opens or closes nothing. -/
theorem plain_head {c : Char} (h : c ∈ ['n', 't', 'f', '-'] ∨ c.isDigit) :
    isBlank c = false ∧ Container.ofOpening? c = none ∧ c ∉ [']', '\x7d'] := by
  rcases h with hc | hc
  · simp only [List.mem_cons, List.not_mem_nil, or_false] at hc
    rcases hc with rfl | rfl | rfl | rfl <;> decide
  · have hnot : c ∉ [' ', '\t', '\n', '\r', '[', ']', '\x7b', '\x7d'] :=
      fun hmem => not_isDigit_of_mem c hmem hc
    simp only [List.mem_cons, not_or] at hnot
    refine ⟨isBlank_of_isDigit hc, ?_, ?_⟩
    · simp [Container.ofOpening?, hnot]
    · simp [hnot]

/-- Every value and every item opens. -/
theorem Derives.opens {k : Category} {s : List Char} (h : Derives k s) :
    ∀ rest, Opens (s ++ rest) := by
  induction h with
  | word h =>
      intro rest
      obtain ⟨c, t, rfl, hc⟩ := exists_cons_of_mem_words h
      obtain ⟨hblank, -, hclosing⟩ := plain_head (.inl (List.mem_append_left ['-'] hc))
      exact opens_cons hblank hclosing _
  | numeral h =>
      intro rest
      obtain ⟨c, t, rfl, hc⟩ := h.exists_cons
      obtain ⟨hblank, -, hclosing⟩ := plain_head (hc.imp_left fun hc => by simp [hc])
      exact opens_cons hblank hclosing _
  | string h => exact fun rest => opens_cons (by decide) (by decide) _
  | empty c h => exact fun rest => opens_cons (by cases c <;> decide) (by cases c <;> decide) _
  | @filled c s h ih =>
      exact fun rest => opens_cons (by cases c <;> decide) (by cases c <;> decide) _
  | element hbefore hafter h ih =>
      intro rest
      rw [List.append_assoc, List.append_assoc]
      exact hbefore.opens_append (ih _)
  | single h ih => exact ih
  | member hbefore hraw hgap h ih =>
      intro rest
      rw [List.append_assoc, List.append_assoc, List.append_assoc]
      exact hbefore.opens_append (opens_cons (by decide) (by decide) _)
  | more hs ht ihs iht =>
      intro rest
      rw [List.append_assoc]
      exact ihs _

/-! ### Whole values -/

/-- The reader gets from where a text of this category is due to what follows it, whatever
containers are open around it. -/
def Skips : Category → List Char → Prop
  | .value, s => ∀ around rest, Ends rest →
    skipFrom around .value (s ++ rest) = skipFrom around .follow rest
  | .element, s => ∀ inner outer rest, Ends rest →
    skipFrom (inner :: outer) .value (s ++ rest) = skipFrom (inner :: outer) .follow rest
  | .items c, s => ∀ outer rest, Ends rest →
    skipFrom (c :: outer) c.item (s ++ rest) = skipFrom (c :: outer) .follow rest

theorem skipColon_append {gap : List Char} (h : Blank gap) (rest : List Char) :
    skipColon (gap ++ ':' :: rest) = .ok rest := by
  rw [skipColon, h.skipBlanks_append, skipBlanks_cons (by decide)]
  exact if_pos rfl

theorem skipName_append {units : List StringUnit} {raw gap : List Char} (hraw : Body units raw)
    (hgap : Blank gap) (rest : List Char) :
    skipName ('"' :: (raw ++ '"' :: (gap ++ ':' :: rest))) = .ok rest := by
  rw [skipName, scanString_body hraw]
  exact skipColon_append hgap rest

theorem skipBlanks_opening (c : Container) (s : List Char) :
    skipBlanks (c.opening :: s) = c.opening :: s :=
  skipBlanks_cons (by cases c <;> decide) s

theorem skipBlanks_closing (c : Container) (s : List Char) :
    skipBlanks (c.closing :: s) = c.closing :: s :=
  skipBlanks_cons (by cases c <;> decide) s

theorem ends_closing (c : Container) (s : List Char) : Ends (c.closing :: s) :=
  ends_cons (by cases c <;> decide) s

/-- **What the grammar derives is skipped**, to any depth. -/
theorem Derives.skips {k : Category} {s : List Char} (h : Derives k s) : Skips k s := by
  induction h with
  | word h =>
      intro around rest hrest
      have hskip := skipScalar_word h rest
      obtain ⟨c, t, rfl, hc⟩ := exists_cons_of_mem_words h
      obtain ⟨hblank, hopening, -⟩ := plain_head (.inl (List.mem_append_left ['-'] hc))
      exact skipFrom_scalar (skipBlanks_cons hblank _) hopening hskip
  | numeral h =>
      intro around rest hrest
      have hskip := skipScalar_numeral h hrest
      obtain ⟨c, t, rfl, hc⟩ := h.exists_cons
      obtain ⟨hblank, hopening, -⟩ := plain_head (hc.imp_left fun hc => by simp [hc])
      exact skipFrom_scalar (skipBlanks_cons hblank _) hopening hskip
  | string h =>
      intro around rest hrest
      rw [List.append_assoc]
      exact skipFrom_scalar (skipBlanks_cons (by decide) _) rfl (skipScalar_body h rest)
  | empty c h =>
      intro around rest hrest
      rw [List.append_assoc]
      refine skipFrom_empty (skipBlanks_opening c _) ?_
      exact (h.skipBlanks_append _).trans (skipBlanks_closing c rest)
  | @filled c s h ih =>
      intro around rest hrest
      rw [List.append_assoc]
      refine (skipFrom_opening (skipBlanks_opening c _) (h.opens _ c)).trans ?_
      refine (ih around _ (ends_closing c rest)).trans ?_
      exact skipFrom_close (skipBlanks_closing c rest)
  | element hbefore hafter h ih =>
      intro inner outer rest hrest
      rw [List.append_assoc, List.append_assoc,
        skipFrom_value_congr (hbefore.skipBlanks_append _), ih _ _ (hafter.ends_append hrest)]
      exact skipFrom_follow_congr (hafter.skipBlanks_append rest)
  | single h ih => exact ih .array
  | member hbefore hraw hgap h ih =>
      intro outer rest hrest
      rw [List.append_assoc, List.append_assoc, List.append_assoc]
      refine (skipFrom_name ?_ (skipName_append hraw hgap _)).trans (ih .object outer rest hrest)
      rw [hbefore.skipBlanks_append]
      exact skipBlanks_cons (by decide) _
  | @more c s t hs ht ihs iht =>
      intro outer rest hrest
      rw [List.append_assoc]
      refine (ihs outer _ (ends_cons (by decide) _)).trans ?_
      refine (skipFrom_comma (skipBlanks_cons (by decide) _)).trans ?_
      exact iht outer rest hrest

/-- **A value is skipped with the blanks before it, and nothing behind it.** -/
theorem Derives.skipValue_append {lead value : List Char} (h : Derives .value value)
    (hlead : Blank lead) {rest : List Char} (hrest : Ends rest) :
    skipValue (lead ++ (value ++ rest)) = .ok rest := by
  rw [skipValue, skipFrom_value_congr (hlead.skipBlanks_append _), h.skips [] rest hrest, skipFrom]

end WindowedLz4.Json
