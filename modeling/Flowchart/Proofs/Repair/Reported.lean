import Flowchart.Proofs.Repair.Again

/-!
# Findings and the lines that they are about

Repair looks at one line at a time, so a finding can be told by the line that it is about.

* `repairedLine`: what becomes of a line. `repaired_eq_map`: the repaired lines are the lines, each
  of them repaired. `getElem?_lines_fixed`: they stand in the repaired text where they stood.
* `ReportedOn`: a finding has a label within a line. `reportedOn_missingSemicolon_iff`,
  `reportedOn_assignmentInCondition_iff`: so it is where the line has the slip, and there only.
-/

namespace Flowchart.Repair

open Text (byteLength joinLines trim)

variable {offset : Nat} {opened : List Nat} {line : List Char}
  {before lines after : List (List Char)} {d : Diagnostic} {source : List Char}

/-! ## Repaired lines -/

/-- What becomes of a line. -/
def repairedLine (line : List Char) : List Char := (repairLine 0 line).2

theorem repairLine_snd (offset : Nat) (line : List Char) :
    (repairLine offset line).2 = repairedLine line := by
  simp only [repairedLine, repairLine]
  split_ifs <;> rfl

theorem repaired_eq_map (offset : Nat) (opened : List Nat) (lines : List (List Char)) :
    (repairLines offset opened lines).repaired = lines.map repairedLine := by
  induction lines generalizing offset opened with
  | nil => rfl
  | cons line lines ih =>
    rw [repairLines, List.map_cons, ← repairLine_snd offset, ← ih]

theorem repairedLine_of_lacksSemicolon (h : lacksSemicolon line = true) :
    repairedLine line = insertSemicolon line := by
  obtain ⟨hskip, hneeds⟩ := Bool.and_eq_true_iff.mp h
  have hassigns := not_assignsInCondition_of_needsSemicolon hneeds
  rw [Bool.not_eq_true'] at hskip
  simp [repairedLine, repairLine, hskip, hneeds, hassigns]

theorem repairedLine_of_lacksComparison (h : lacksComparison line = true) :
    repairedLine line = doubleEquals line := by
  obtain ⟨hskip, hassigns⟩ := Bool.and_eq_true_iff.mp h
  have hneeds : needsSemicolon (trim line) = false := by
    by_contra hneeds
    rw [Bool.not_eq_false] at hneeds
    simp [not_assignsInCondition_of_needsSemicolon hneeds] at hassigns
  rw [Bool.not_eq_true'] at hskip
  simp [repairedLine, repairLine, hskip, hneeds, hassigns]

/-- A repaired line stands where the line stood. -/
theorem getElem?_lines_fixed (h : (sourceLines source).1 = before ++ line :: after) :
    (Text.lines (analyze source).fixed)[before.length]? = some (repairedLine line) := by
  obtain ⟨cs, z, rfl, hz⟩ := exists_lastBreak source
  have hlines : Text.lines (joinLines (fixedLines cs)) = fixedLines cs :=
    Text.lines_joinLines (fixedLines_ne_nil cs) newline_not_mem_of_mem_fixedLines
  have hline : (fixedLines cs)[before.length]? = some (repairedLine line) := by
    rw [sourceLines_eq hz] at h
    have hlines : Text.lines cs = before ++ line :: after := h
    simp [fixedLines, repaired_eq_map, hlines]
  rw [fixed_eq hz, ← fixedLines]
  rcases hz with rfl | ⟨rfl, -⟩
  · have hbreak : Text.lines (joinLines (fixedLines cs) ++ ['\n']) =
        Text.lines (joinLines (fixedLines cs)) ++ [[]] := List.splitOn_append_cons_self _ []
    have hlt := (List.getElem?_eq_some_iff.mp hline).1
    rw [hbreak, hlines, List.getElem?_append_left hlt, hline]
  · rw [List.append_nil, hlines, hline]

/-! ## Where findings are -/

/-- The byte offset of the line that comes after the lines. -/
def offsetAfter : List (List Char) → Nat
  | [] => 0
  | line :: lines => byteLength line + 1 + offsetAfter lines

/-- A finding of this kind has a label within the line that comes after the lines `before`. -/
def ReportedOn (source : List Char) (finding : Finding) (before : List (List Char))
    (line : List Char) : Prop :=
  ∃ d ∈ (analyze source).diagnostics, d.finding = some finding ∧ ∃ l ∈ d.labels,
    offsetAfter before ≤ l.span.start ∧ l.span.stop ≤ offsetAfter before + byteLength line

theorem offsetAfter_append (as bs : List (List Char)) :
    offsetAfter (as ++ bs) = offsetAfter as + offsetAfter bs := by
  induction as with
  | nil => exact (Nat.zero_add _).symm
  | cons a as ih =>
    rw [List.cons_append, offsetAfter, offsetAfter, ih, ← Nat.add_assoc]

theorem joinLines_cons_append (line : List Char) (lines : List (List Char)) (t : List Char) :
    joinLines (line :: lines ++ [t]) = line ++ '\n' :: joinLines (lines ++ [t]) := by
  rw [List.cons_append, Text.joinLines_cons]
  cases lines <;> rfl

/-- The line after others begins at their offset. -/
theorem byteLength_joinLines (before : List (List Char)) (t : List Char) :
    byteLength (joinLines (before ++ [t])) = offsetAfter before + byteLength t := by
  induction before with
  | nil => simp [offsetAfter, Text.joinLines_singleton]
  | cons line lines ih =>
    have hbreak : '\n'.utf8Size = 1 := by decide
    rw [joinLines_cons_append, Text.byteLength_append, Text.byteLength_cons, ih, offsetAfter,
      hbreak]
    omega

/-- The findings about lines are those about each of them. -/
theorem mem_diagnostics_iff : d ∈ (repairLines offset opened lines).diagnostics ↔
    ∃ before line after, lines = before ++ line :: after ∧
      d ∈ (repairLine (offset + offsetAfter before) line).1 := by
  induction lines generalizing offset opened with
  | nil => simp [repairLines]
  | cons line lines ih =>
    rw [repairLines, List.mem_append, ih]
    constructor
    · rintro (h | ⟨before, line', after, rfl, h⟩)
      · exact ⟨[], line, lines, rfl, h⟩
      · refine ⟨line :: before, line', after, rfl, ?_⟩
        rwa [offsetAfter, ← Nat.add_assoc, ← Nat.add_assoc]
    · rintro ⟨before, line', after, hlines, h⟩
      cases before with
      | nil =>
        obtain ⟨rfl, rfl⟩ := List.cons.inj hlines
        exact .inl h
      | cons line'' before =>
        obtain ⟨rfl, rfl⟩ := List.cons.inj hlines
        refine .inr ⟨before, line', after, rfl, ?_⟩
        rwa [offsetAfter, ← Nat.add_assoc, ← Nat.add_assoc] at h

/-- A finding about a line has its label within the line. -/
theorem within_of_mem_repairLine (h : d ∈ (repairLine offset line).1) :
    ∀ l ∈ d.labels, offset ≤ l.span.start ∧ l.span.stop ≤ offset + byteLength line := by
  have hrepaired := repaired_repairLine offset line
  generalize (repairLine offset line).1 = ds, (repairLine offset line).2 = line' at h hrepaired
  cases hrepaired with
  | kept => cases h
  | terminated | compared =>
    obtain rfl := List.mem_singleton.mp h
    simp [missingSemicolon, assignmentInCondition, lineDiagnostic]
    omega

theorem exists_label_of_mem_repairLine (h : d ∈ (repairLine offset line).1) :
    ∃ l, l ∈ d.labels := by
  have hrepaired := repaired_repairLine offset line
  generalize (repairLine offset line).1 = ds, (repairLine offset line).2 = line' at h hrepaired
  cases hrepaired with
  | kept => cases h
  | terminated | compared =>
    obtain rfl := List.mem_singleton.mp h
    exact ⟨_, List.mem_singleton_self _⟩

/-- Two lines that hold one label are the same line. -/
theorem eq_of_within {before' after' : List (List Char)} {line' : List Char} {s : Span}
    (hlines : before ++ line :: after = before' ++ line' :: after')
    (h : offsetAfter before ≤ s.start ∧ s.stop ≤ offsetAfter before + byteLength line)
    (h' : offsetAfter before' ≤ s.start ∧ s.stop ≤ offsetAfter before' + byteLength line') :
    before = before' ∧ line = line' := by
  have hs := s.start_le_stop
  -- Where one line comes before the other, there is a line break between them.
  rcases List.append_eq_append_iff.mp hlines with ⟨mid, rfl, hrest⟩ | ⟨mid, rfl, hrest⟩
  all_goals
    cases mid with
    | nil => simpa [eq_comm] using (List.cons.inj hrest).1
    | cons m mid =>
      obtain ⟨rfl, -⟩ := List.cons.inj hrest
      simp only [offsetAfter_append, offsetAfter] at h h'
      omega

/-- Repair finds nothing else than open blocks after the lines. -/
theorem finding_of_mem_blocks {length : Nat} {opened : List Nat}
    (h : d ∈ if opened = [] then [] else [unclosedBlock length opened.reverse]) :
    d.finding = some .unclosedBlock := by
  split at h
  · cases h
  · rw [List.mem_singleton.mp h, unclosedBlock]

/-- A finding is reported on a line if and only if it is about the line. -/
theorem reportedOn_iff {finding : Finding} (hfinding : finding ≠ .unclosedBlock)
    (h : (sourceLines source).1 = before ++ line :: after) :
    ReportedOn source finding before line ↔
      ∃ d ∈ (repairLine (offsetAfter before) line).1, d.finding = some finding := by
  obtain ⟨cs, z, rfl, hz⟩ := exists_lastBreak source
  rw [sourceLines_eq hz] at h
  have hlines : Text.lines cs = before ++ line :: after := h
  simp only [ReportedOn, diagnostics_eq hz, List.mem_append, mem_diagnostics_iff, Nat.zero_add]
  constructor
  · rintro ⟨d, hd | hd, hkind, l, hl, hwithin⟩
    · obtain ⟨before', line', after', hlines', hd⟩ := hd
      obtain ⟨rfl, rfl⟩ := eq_of_within (hlines.symm.trans hlines') hwithin
        (within_of_mem_repairLine hd l hl)
      exact ⟨d, hd, hkind⟩
    · have hblock := finding_of_mem_blocks hd
      rw [hkind, Option.some.injEq] at hblock
      exact absurd hblock hfinding
  · rintro ⟨d, hd, hkind⟩
    obtain ⟨l, hl⟩ := exists_label_of_mem_repairLine hd
    exact ⟨d, .inl ⟨before, line, after, hlines, hd⟩, hkind, l, hl,
      within_of_mem_repairLine hd l hl⟩

theorem repairLine_fst (offset : Nat) (line : List Char) : (repairLine offset line).1 =
    (if lacksSemicolon line then [missingSemicolon (trimmedSpan offset line)] else []) ++
      if lacksComparison line then [assignmentInCondition (trimmedSpan offset line)] else [] := by
  simp only [repairLine, lacksSemicolon, lacksComparison]
  split_ifs <;> simp_all

theorem reportedOn_missingSemicolon_iff (h : (sourceLines source).1 = before ++ line :: after) :
    ReportedOn source .missingSemicolon before line ↔ lacksSemicolon line = true := by
  rw [reportedOn_iff (by decide) h, repairLine_fst]
  cases lacksSemicolon line <;> cases lacksComparison line <;>
    simp [missingSemicolon, assignmentInCondition, lineDiagnostic]

theorem reportedOn_assignmentInCondition_iff
    (h : (sourceLines source).1 = before ++ line :: after) :
    ReportedOn source .assignmentInCondition before line ↔ lacksComparison line = true := by
  rw [reportedOn_iff (by decide) h, repairLine_fst]
  cases lacksSemicolon line <;> cases lacksComparison line <;>
    simp [missingSemicolon, assignmentInCondition, lineDiagnostic]

end Flowchart.Repair
