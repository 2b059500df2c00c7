/-
Strings and words, scanned.

Each scanner is given a piece of the grammar with more text behind it, and takes just
that piece.  A string ends at its quote and a word at its last letter, whatever follows.
A name is read in two steps, its units first, and is what they spell.
-/
import WindowedLz4.Proofs.Json.Grammar
namespace WindowedLz4.Json

/-! ### Strings -/

theorem hexDigit?_of_digitChar : ∀ d < 16, hexDigit? (Nat.digitChar d) = some d ∧
    hexDigit? (Nat.digitChar d).toUpper = some d := by
  decide

theorem HexDigit.hexDigit?_eq {c : Char} {d : Nat} (h : HexDigit c d) : hexDigit? c = some d := by
  obtain ⟨hlt, rfl | rfl⟩ := h
  · exact (hexDigit?_of_digitChar d hlt).1
  · exact (hexDigit?_of_digitChar d hlt).2

theorem shortEscape?_of_mem : ∀ p ∈ escapes, p.1 ≠ 'u' ∧ shortEscape? p.1 = some p.2 := by
  decide

/-- A string is scanned up to its closing quote. -/
theorem scanUnits_body {units : List StringUnit} {raw : List Char} (h : Body units raw)
    (rest : List Char) :
    ∀ before, scanUnits before (raw ++ '"' :: rest) = ⟨before.reverse ++ units, .ok rest⟩ := by
  induction h with
  | nil =>
      intro before
      rw [List.append_nil]
      rfl
  | @plain c units raw hcontrol hquote hescape _ ih =>
      intro before
      have hstep : scanUnits before (c :: (raw ++ '"' :: rest))
          = scanUnits (.plain c :: before) (raw ++ '"' :: rest) := by
        simp [scanUnits, hescape, Nat.not_lt.mpr hcontrol]
      rw [List.cons_append, hstep, ih, List.reverse_cons, List.append_assoc]
      rfl
  | @short c e units raw hc _ ih =>
      intro before
      obtain ⟨hu, hmeans⟩ := shortEscape?_of_mem _ hc
      have hstep : scanUnits before ('\\' :: c :: (raw ++ '"' :: rest))
          = scanUnits (.plain e :: before) (raw ++ '"' :: rest) := by
        simp_all [scanUnits]
      rw [List.cons_append, List.cons_append, hstep, ih, List.reverse_cons, List.append_assoc]
      rfl
  | @number a b c d i j k l units raw ha hb hc hd _ ih =>
      intro before
      have hnumber : hexNumber? a b c d = some (((i * 16 + j) * 16 + k) * 16 + l) := by
        simp [hexNumber?, ha.hexDigit?_eq, hb.hexDigit?_eq, hc.hexDigit?_eq, hd.hexDigit?_eq]
      simp only [List.cons_append, scanUnits, hnumber]
      rw [ih, List.reverse_cons, List.append_assoc]
      rfl

theorem scanString_body {units : List StringUnit} {raw : List Char} (h : Body units raw)
    (rest : List Char) : scanString (raw ++ '"' :: rest) = ⟨units, .ok rest⟩ :=
  scanUnits_body h rest []

/-- The units of a name are joined to its characters. -/
theorem joinUnits_spells {units : List StringUnit} {name : List Char} (h : Spells units name)
    (atEnd : Fault) : ∀ before, joinUnits atEnd before units = .ok (before.reverse ++ name) := by
  induction h with
  | nil =>
      intro before
      rw [List.append_nil]
      rfl
  | plain _ ih =>
      intro before
      rw [joinUnits, ih, List.reverse_cons, List.append_assoc]
      rfl
  | @escaped n units name hn _ ih =>
      intro before
      have htrailing : isTrailing n = false := by
        simp only [isTrailing, Bool.and_eq_false_iff, decide_eq_false_iff_not]
        omega
      have hleading : isLeading n = false := by
        simp only [isLeading, Bool.and_eq_false_iff, decide_eq_false_iff_not]
        omega
      unfold joinUnits
      simp only [htrailing, hleading, Bool.false_eq_true, if_false]
      rw [ih, List.reverse_cons, List.append_assoc]
      rfl
  | @halves high low units name hhigh hlow _ ih =>
      intro before
      have hchar : (0xD800 + high - 0xD800) * 0x400 + (0xDC00 + low - 0xDC00) + 0x10000
          = 0x10000 + high * 0x400 + low := by
        omega
      have htrailing : isTrailing (0xD800 + high) = false := by
        simp only [isTrailing, Bool.and_eq_false_iff, decide_eq_false_iff_not]
        omega
      have hleading : isLeading (0xD800 + high) = true := by
        simp only [isLeading, Bool.and_eq_true, decide_eq_true_eq]
        omega
      have hjoined : isTrailing (0xDC00 + low) = true := by
        simp only [isTrailing, Bool.and_eq_true, decide_eq_true_eq]
        omega
      unfold joinUnits
      simp only [htrailing, hleading, hjoined, if_true, Bool.false_eq_true, if_false]
      rw [hchar, ih, List.reverse_cons, List.append_assoc]
      rfl

/-- **A name is read as it is spelled**, and the reader stands behind its closing quote. -/
theorem Spelled.readString_eq {name raw : List Char} (h : Spelled name raw) (rest : List Char) :
    readString (raw ++ '"' :: rest) = .ok (name, rest) := by
  obtain ⟨units, hraw, hname⟩ := h
  rw [readString, scanString_body hraw, StringScan.text, joinUnits_spells hname]
  rfl

/-! ### Words -/

theorem skipWord_append (word rest : List Char) : skipWord word (word ++ rest) = .ok rest := by
  induction word with
  | nil => rfl
  | cons w word ih => rw [List.cons_append, skipWord, if_pos rfl, ih]

end WindowedLz4.Json
