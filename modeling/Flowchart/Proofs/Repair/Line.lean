import Flowchart.Proofs.Repair

/-!
# What repair does to one line

* `Repaired`: a line stays as it is, or it gets a semicolon, or its first equals sign is doubled.
  The white space at its ends stays. `repaired_repairLine`: so it is for every line.
* `IsSound`: there is nothing to repair in a line. `isSound_of_repaired`: so it is after repair.
* `diagnostics_eq`, `fixed_eq`: the findings about all lines and the repaired text, with
  the line break at the end of the source, if there is one, left aside.
-/

namespace Flowchart

open Text (byteLength isBlank isBlankText trim trimEnd joinLines)

namespace Text

variable {a b t : List Char}

theorem trim_between (ha : isBlankText a = true) (hb : isBlankText b = true) (ht : trim t = t) :
    trim (a ++ t ++ b) = t := by
  rw [List.append_assoc, trim_blank_append ha, trim_append_blank hb, ht]

theorem trimEnd_between (hb : isBlankText b = true) (ht : trim t = t) (hne : t ≠ []) :
    trimEnd (a ++ t ++ b) = a ++ t := by
  rw [trimEnd_append_blank hb, trimEnd_eq_self_iff, List.getLast?_append_of_ne_nil _ hne]
  exact (trim_eq_self_iff.mp ht).2

theorem takeWhile_isBlank_between (ha : isBlankText a = true) (ht : trim t = t) (hne : t ≠ []) :
    (a ++ t ++ b).takeWhile isBlank = a := by
  obtain ⟨c, t, rfl⟩ := List.exists_cons_of_ne_nil hne
  have hc : isBlank c = false := (trim_eq_self_iff.mp ht).1 c rfl
  rw [List.append_assoc, List.takeWhile_append_of_pos (isBlankText_iff.mp ha), List.cons_append,
    List.takeWhile_cons_of_neg (by simp [hc]), List.append_nil]

theorem replaceFirst_append {c : Char} {x : List Char} (hx : c ∉ x) (replacement y : List Char) :
    replaceFirst c replacement (x ++ c :: y) = x ++ replacement ++ y := by
  induction x with
  | nil => simp [replaceFirst]
  | cons d x ih =>
    obtain ⟨hd, hx⟩ := not_or.mp (List.mem_cons.not.mp hx)
    rw [List.cons_append, replaceFirst, if_neg (Ne.symm hd), ih hx]
    rfl

end Text

namespace Repair

variable {offset : Nat} {a b t x y line line' : List Char} {ds : List Diagnostic}

/-! ## Lines that are sound -/

/-- The condition of the line is repaired. -/
def lacksComparison (line : List Char) : Bool :=
  !isSkipped (trim line) && assignsInCondition (trim line)

/-- There is nothing to repair in the line. -/
structure IsSound (line : List Char) : Prop where
  semicolon : lacksSemicolon line = false
  comparison : lacksComparison line = false

theorem repairLine_of_isSound (h : IsSound line) : repairLine offset line = ([], line) := by
  obtain ⟨hs, hc⟩ := h
  unfold lacksSemicolon at hs
  unfold lacksComparison at hc
  cases hskip : isSkipped (trim line) <;> simp_all [repairLine]

/-! ## The three ways -/

/-- What becomes of a line at byte `offset`: the findings about it and the repaired line. -/
inductive Repaired (offset : Nat) : List Char → List Diagnostic → List Char → Prop where
  | kept {line : List Char} (sound : IsSound line) : Repaired offset line [] line
  | terminated {a t b : List Char} (ha : isBlankText a = true) (hb : isBlankText b = true)
      (ht : trim t = t) (hskip : isSkipped t = false) (hneeds : needsSemicolon t = true) :
      Repaired offset (a ++ t ++ b)
        [missingSemicolon
          (.between (offset + byteLength a) (offset + byteLength a + byteLength t))]
        (a ++ (t ++ [';']) ++ b)
  | compared {a x y b : List Char} (ha : isBlankText a = true) (hb : isBlankText b = true)
      (ht : trim (x ++ '=' :: y) = x ++ '=' :: y) (hx : '=' ∉ x)
      (hskip : isSkipped (x ++ '=' :: y) = false)
      (hassigns : assignsInCondition (x ++ '=' :: y) = true) :
      Repaired offset (a ++ (x ++ '=' :: y) ++ b)
        [assignmentInCondition
          (.between (offset + byteLength a) (offset + byteLength a + byteLength (x ++ '=' :: y)))]
        (a ++ (x ++ '=' :: '=' :: y) ++ b)

theorem ne_nil_of_isSkipped (h : isSkipped t = false) : t ≠ [] := by
  rintro rfl
  simp [isSkipped] at h

theorem trimmedSpan_between (ha : isBlankText a = true) (hb : isBlankText b = true)
    (ht : trim t = t) (hne : t ≠ []) : trimmedSpan offset (a ++ t ++ b) =
      .between (offset + byteLength a) (offset + byteLength a + byteLength t) := by
  rw [trimmedSpan, Text.takeWhile_isBlank_between ha ht hne, Text.trim_between ha hb ht]

theorem insertSemicolon_between (hb : isBlankText b = true) (ht : trim t = t) (hne : t ≠ []) :
    insertSemicolon (a ++ t ++ b) = a ++ (t ++ [';']) ++ b := by
  obtain ⟨w, -, hline, hinsert⟩ := exists_insertSemicolon (a ++ t ++ b)
  rw [Text.trimEnd_between hb ht hne] at hline hinsert
  rw [hinsert, ← List.append_cancel_left hline]
  simp

theorem doubleEquals_between (ha : isBlankText a = true) (hx : '=' ∉ x) (y b : List Char) :
    doubleEquals (a ++ (x ++ '=' :: y) ++ b) = a ++ (x ++ '=' :: '=' :: y) ++ b := by
  have hequals : '=' ∉ a ++ x := by
    simpa [hx] using fun h => absurd (Text.isBlankText_iff.mp ha _ h) (by decide)
  have hfirst := Text.replaceFirst_append hequals ['=', '='] (y ++ b)
  rw [doubleEquals, List.append_assoc, List.append_assoc, List.cons_append, ← List.append_assoc a,
    hfirst]
  simp

/-- A header needs no semicolon, so at most one of the two repairs is made. -/
theorem not_assignsInCondition_of_needsSemicolon (h : needsSemicolon t = true) :
    assignsInCondition t = false := by
  simp only [needsSemicolon, headerKeywords, List.any_cons, Bool.and_eq_true, Bool.not_eq_true',
    Bool.or_eq_false_iff] at h
  simp [assignsInCondition, h]

theorem repaired_repairLine (offset : Nat) (line : List Char) :
    Repaired offset line (repairLine offset line).1 (repairLine offset line).2 := by
  by_cases hsound : IsSound line
  · rw [repairLine_of_isSound hsound]
    exact .kept hsound
  obtain ⟨a, b, ha, hb, hline⟩ := Text.exists_eq_append_trim line
  have ht := Text.trim_trim line
  have hskip : isSkipped (trim line) = false := by
    by_contra hskip
    rw [Bool.not_eq_false] at hskip
    exact hsound ⟨by simp [lacksSemicolon, hskip], by simp [lacksComparison, hskip]⟩
  generalize hs : trim line = t at hline ht hskip
  have hne := ne_nil_of_isSkipped hskip
  cases hneeds : needsSemicolon t with
  | true =>
    have hassigns := not_assignsInCondition_of_needsSemicolon hneeds
    have hrepair : repairLine offset line =
        ([missingSemicolon (trimmedSpan offset line)], insertSemicolon line) := by
      simp [repairLine, hs, hskip, hneeds, hassigns]
    rw [hrepair, hline, trimmedSpan_between ha hb ht hne, insertSemicolon_between hb ht hne]
    exact .terminated ha hb ht hskip hneeds
  | false =>
    have hassigns : assignsInCondition t = true := by
      by_contra hassigns
      rw [Bool.not_eq_true] at hassigns
      exact hsound ⟨by simp [lacksSemicolon, hs, hneeds], by simp [lacksComparison, hs, hassigns]⟩
    have hrepair : repairLine offset line =
        ([assignmentInCondition (trimmedSpan offset line)], doubleEquals line) := by
      simp [repairLine, hs, hskip, hneeds, hassigns]
    have hequals : '=' ∈ t := by
      simp only [assignsInCondition, Bool.and_eq_true, List.contains_iff_mem] at hassigns
      exact hassigns.1.2
    obtain ⟨x, y, rfl, hx⟩ := List.eq_append_cons_of_mem hequals
    rw [hrepair, hline, trimmedSpan_between ha hb ht hne, doubleEquals_between ha hx]
    exact .compared ha hb ht hx hskip hassigns

/-! ## Repaired lines are sound -/

theorem isSound_of_trim (ha : isBlankText a = true) (hb : isBlankText b = true) (ht : trim t = t)
    (hneeds : needsSemicolon t = false) (hassigns : assignsInCondition t = false) :
    IsSound (a ++ t ++ b) := by
  constructor
  · rw [lacksSemicolon, Text.trim_between ha hb ht, hneeds, Bool.and_false]
  · rw [lacksComparison, Text.trim_between ha hb ht, hassigns, Bool.and_false]

theorem trim_append_semicolon (ht : trim t = t) (hne : t ≠ []) :
    trim (t ++ [';']) = t ++ [';'] := by
  rw [Text.trim_eq_self_iff] at ht ⊢
  rw [List.head?_append_of_ne_nil _ hne]
  refine ⟨ht.1, fun c hc => ?_⟩
  obtain rfl : ';' = c := by simpa using hc
  rfl

theorem trim_double (ht : trim (x ++ '=' :: y) = x ++ '=' :: y) :
    trim (x ++ '=' :: '=' :: y) = x ++ '=' :: '=' :: y := by
  have hhead : (x ++ '=' :: '=' :: y).head? = (x ++ '=' :: y).head? := by cases x <;> rfl
  have hlast : (x ++ '=' :: '=' :: y).getLast? = (x ++ '=' :: y).getLast? := by
    rw [List.append_cons, List.getLast?_append_of_ne_nil _ (List.cons_ne_nil _ _),
      List.getLast?_append_of_ne_nil _ (List.cons_ne_nil _ _)]
  rwa [Text.trim_eq_self_iff, hhead, hlast, ← Text.trim_eq_self_iff]

/-- The semicolon completes no keyword. -/
theorem not_assignsInCondition_semicolon (h : needsSemicolon t = true) :
    assignsInCondition (t ++ [';']) = false := by
  have hwords : "if".toList.all isWordChar = true ∧ "while".toList.all isWordChar = true := by
    decide
  simp only [needsSemicolon, headerKeywords, List.any_cons, Bool.and_eq_true, Bool.not_eq_true',
    Bool.or_eq_false_iff] at h
  rw [assignsInCondition, Statement.startsWithKeyword_append hwords.1 .singleton,
    Statement.startsWithKeyword_append hwords.2 .singleton]
  simp [h]

theorem contains_double (x y : List Char) :
    Text.contains "==".toList (x ++ '=' :: '=' :: y) = true := by
  induction x with
  | nil => simp [Text.contains, Text.startsWith]
  | cons c x ih => rw [List.cons_append, Text.contains, ih, Bool.or_true]

/-- A doubled equals sign compares, and the keyword before it stays. -/
theorem not_needsSemicolon_double (h : assignsInCondition (x ++ '=' :: y) = true) :
    needsSemicolon (x ++ '=' :: '=' :: y) = false ∧
      assignsInCondition (x ++ '=' :: '=' :: y) = false := by
  have hstarts {k : String} (hk : k.toList.all isWordChar = true) (z : List Char) :
      Statement.startsWithKeyword k (x ++ '=' :: z) = Statement.startsWithKeyword k x :=
    Statement.startsWithKeyword_append_of_head hk (by simp; decide) x
  have hif (z : List Char) := hstarts (k := "if") (by decide) z
  have hwhile (z : List Char) := hstarts (k := "while") (by decide) z
  have hcompares : comparisons.any (Text.contains ·.toList (x ++ '=' :: '=' :: y)) = true :=
    List.any_eq_true.mpr ⟨"==", by simp [comparisons], contains_double x y⟩
  constructor
  · simp only [assignsInCondition, hif, hwhile, Bool.and_eq_true, Bool.or_eq_true] at h
    rcases h.1.1 with h | h
    · simp [needsSemicolon, headerKeywords, hif, h]
    · simp [needsSemicolon, headerKeywords, hwhile, h]
  · rw [assignsInCondition, hcompares, Bool.not_true, Bool.and_false]

theorem isSound_of_repaired (h : Repaired offset line ds line') : IsSound line' := by
  cases h with
  | kept sound => exact sound
  | terminated ha hb ht hskip hneeds =>
    refine isSound_of_trim ha hb (trim_append_semicolon ht (ne_nil_of_isSkipped hskip)) ?_
      (not_assignsInCondition_semicolon hneeds)
    simp [needsSemicolon]
  | compared ha hb ht _ _ hassigns =>
    obtain ⟨hneeds, hcompares⟩ := not_needsSemicolon_double hassigns
    exact isSound_of_trim ha hb (trim_double ht) hneeds hcompares

/-! ## All lines -/

/-- The closing braces that are missing after the lines, each on a line of its own. -/
def Lines.closers (r : Lines) : List (List Char) := List.replicate r.opened.length ['}']

variable {cs z : List Char}

theorem repaired_ne_nil (cs : List Char) : (repairLines 0 [] (Text.lines cs)).repaired ≠ [] := by
  obtain ⟨line, lines, hlines⟩ := List.exists_cons_of_ne_nil (Text.lines_ne_nil cs)
  simp [hlines, repairLines]

theorem diagnostics_eq (h : IsLastBreak cs z) :
    (analyze (cs ++ z)).diagnostics = (repairLines 0 [] (Text.lines cs)).diagnostics ++
      if (repairLines 0 [] (Text.lines cs)).opened = [] then []
      else [unclosedBlock (byteLength (cs ++ z))
        (repairLines 0 [] (Text.lines cs)).opened.reverse] := by
  simp only [analyze, sourceLines_eq h, List.isEmpty_iff, List.reverse_eq_nil_iff]

theorem fixed_eq (h : IsLastBreak cs z) :
    (analyze (cs ++ z)).fixed = joinLines ((repairLines 0 [] (Text.lines cs)).repaired ++
      (repairLines 0 [] (Text.lines cs)).closers) ++ z := by
  simp only [analyze, sourceLines_eq h, List.map_const', List.length_reverse, Lines.closers]
  rcases h with rfl | ⟨rfl, -⟩
  · rfl
  · exact (List.append_nil _).symm

theorem repaired_of_diagnostics_eq_nil {lines : List (List Char)} {opened : List Nat}
    (h : (repairLines offset opened lines).diagnostics = []) :
    (repairLines offset opened lines).repaired = lines := by
  induction lines generalizing offset opened with
  | nil => rfl
  | cons line lines ih =>
    rw [repairLines] at h ⊢
    obtain ⟨hline, hlines⟩ := List.append_eq_nil_iff.mp h
    have hkept : (repairLine offset line).2 = line := by
      have hrepaired := repaired_repairLine offset line
      rw [hline] at hrepaired
      generalize (repairLine offset line).2 = line' at hrepaired ⊢
      cases hrepaired
      rfl
    exact congrArg₂ List.cons hkept (ih hlines)

/-- A source in which nothing is found stays as it is. -/
theorem fixed_of_diagnostics_eq_nil {source : List Char}
    (h : (analyze source).diagnostics = []) : (analyze source).fixed = source := by
  obtain ⟨cs, z, rfl, hz⟩ := exists_lastBreak source
  rw [diagnostics_eq hz, List.append_eq_nil_iff] at h
  have hopened : (repairLines 0 [] (Text.lines cs)).opened = [] := by
    by_contra hopened
    rw [if_neg hopened] at h
    exact List.cons_ne_nil _ _ h.2
  rw [fixed_eq hz, repaired_of_diagnostics_eq_nil h.1, Lines.closers, hopened, List.length_nil,
    List.replicate_zero, List.append_nil, Text.joinLines_lines]

end Repair

end Flowchart
