import Flowchart.Proofs.Repair.Line

/-!
# Repairing again

`analyze_again`: nothing is found in a repaired text, so repairing it leaves it as it is.

* `forall₂_repairs`: the repaired lines are the lines, each of them repaired.
* `foldl_lineStep_repairs`: repair leaves the braces of a line, so as many blocks are open after
  it; the closing braces at the end close them all.
-/

namespace Flowchart.Repair

open Text (trim joinLines)

variable {line line' : List Char} {lines : List (List Char)}

/-! ## Lines and their repaired forms -/

/-- Repair makes `line'` of `line`, wherever it stands. -/
def Repairs (line line' : List Char) : Prop := ∃ offset ds, Repaired offset line ds line'

theorem forall₂_repairs (offset : Nat) (opened : List Nat) (lines : List (List Char)) :
    List.Forall₂ Repairs lines (repairLines offset opened lines).repaired := by
  induction lines generalizing offset opened with
  | nil => exact .nil
  | cons line lines ih => exact .cons ⟨_, _, repaired_repairLine offset line⟩ (ih _ _)

theorem exists_repairs_of_mem {lines' : List (List Char)} (h : List.Forall₂ Repairs lines lines') :
    ∀ line' ∈ lines', ∃ line ∈ lines, Repairs line line' := by
  induction h with
  | nil => simp
  | cons head _ ih =>
    refine List.forall_mem_cons.mpr ⟨⟨_, List.mem_cons_self, head⟩, fun line' hline' => ?_⟩
    obtain ⟨line, hline, h⟩ := ih line' hline'
    exact ⟨line, List.mem_cons_of_mem _ hline, h⟩

theorem Repairs.newline_not_mem (h : Repairs line line') (hn : '\n' ∉ line) : '\n' ∉ line' := by
  obtain ⟨offset, ds, h⟩ := h
  cases h with
  | kept => exact hn
  | terminated | compared => simpa using hn

theorem Repairs.ne_nil (h : Repairs line line') (hne : line ≠ []) : line' ≠ [] := by
  obtain ⟨offset, ds, h⟩ := h
  cases h with
  | kept => exact hne
  | terminated | compared => simp

/-- Where the last of several repaired lines is empty, the last of the lines is. -/
theorem exists_append_nil_of_repairs {front : List (List Char)}
    (h : List.Forall₂ Repairs lines (front ++ [[]])) (hfront : front ≠ []) :
    ∃ front', front' ≠ [] ∧ lines = front' ++ [[]] := by
  rw [← List.forall₂_reverse_iff, List.reverse_append, List.reverse_singleton,
    List.singleton_append, List.forall₂_cons_right_iff] at h
  obtain ⟨last, back, hlast, hback, hlines⟩ := h
  have hempty : last = [] := by
    by_contra hne
    exact hlast.ne_nil hne rfl
  refine ⟨back.reverse, ?_, ?_⟩
  · rw [← List.length_pos_iff, List.length_reverse, hback.length_eq, List.length_reverse]
    exact List.length_pos_iff.mpr hfront
  · rw [← List.reverse_reverse lines, hlines, hempty, List.reverse_cons]

theorem repairLines_of_isSound (offset : Nat) (opened : List Nat)
    (h : ∀ line ∈ lines, IsSound line) :
    (repairLines offset opened lines).diagnostics = [] ∧
      (repairLines offset opened lines).repaired = lines := by
  induction lines generalizing offset opened with
  | nil => exact ⟨rfl, rfl⟩
  | cons line lines ih =>
    obtain ⟨hline, hlines⟩ := List.forall_mem_cons.mp h
    obtain ⟨hdiagnostics, hrepaired⟩ := ih _ _ hlines
    rw [repairLines, repairLine_of_isSound hline]
    exact ⟨hdiagnostics, congrArg _ hrepaired⟩

/-! ## Open braces -/

/-- The number of braces that are open after a character, when `n` are open before it. -/
def braceStep (n : Nat) (c : Char) : Nat :=
  if c = '{' then n + 1 else if c = '}' then n - 1 else n

/-- The number of braces that are open after a line, when `n` are open before it. -/
def lineStep (n : Nat) (line : List Char) : Nat :=
  if isSkipped (trim line) then n else line.foldl braceStep n

theorem length_openAfter (offset : Nat) (opened : List Nat) (cs : List Char) :
    (openAfter offset opened cs).length = cs.foldl braceStep opened.length := by
  induction cs generalizing offset opened with
  | nil => rfl
  | cons c cs ih =>
    rw [openAfter, ih, List.foldl_cons, braceStep]
    split
    · rfl
    · split
      · rw [List.length_tail]
      · rfl

theorem length_opened (offset : Nat) (opened : List Nat) (lines : List (List Char)) :
    (repairLines offset opened lines).opened.length = lines.foldl lineStep opened.length := by
  induction lines generalizing offset opened with
  | nil => rfl
  | cons line lines ih =>
    have hline : (openAfterLine offset opened line).length = lineStep opened.length line := by
      unfold openAfterLine lineStep
      split
      · rfl
      · exact length_openAfter offset opened line
    rw [repairLines, List.foldl_cons, ← hline]
    exact ih _ _

/-- A line that is not passed over is not passed over when it is repaired. -/
theorem isSkipped_semicolon {t : List Char} (h : isSkipped t = false) :
    isSkipped (t ++ [';']) = false := by
  match t with
  | [] => simp [isSkipped] at h
  | [c] => simpa [isSkipped, Text.startsWith, List.isPrefixOf] using h
  | c :: d :: t => simpa [isSkipped, Text.startsWith, List.isPrefixOf] using h

theorem isSkipped_double {x y : List Char} (h : isSkipped (x ++ '=' :: y) = false) :
    isSkipped (x ++ '=' :: '=' :: y) = false := by
  match x with
  | [] => simp [isSkipped, Text.startsWith, List.isPrefixOf]
  | [c] => simpa [isSkipped, Text.startsWith, List.isPrefixOf] using h
  | c :: d :: x => simpa [isSkipped, Text.startsWith, List.isPrefixOf] using h

theorem Repairs.lineStep_eq (h : Repairs line line') (n : Nat) :
    lineStep n line' = lineStep n line := by
  obtain ⟨offset, ds, h⟩ := h
  cases h with
  | kept => rfl
  | terminated ha hb ht hskip _ =>
    have hne := ne_nil_of_isSkipped hskip
    rw [lineStep, lineStep, Text.trim_between ha hb ht,
      Text.trim_between ha hb (trim_append_semicolon ht hne), hskip, isSkipped_semicolon hskip]
    simp [List.foldl_append, braceStep]
  | compared ha hb ht _ hskip _ =>
    rw [lineStep, lineStep, Text.trim_between ha hb ht, Text.trim_between ha hb (trim_double ht),
      hskip, isSkipped_double hskip]
    simp [List.foldl_append, braceStep]

theorem foldl_lineStep_repairs {lines' : List (List Char)} (h : List.Forall₂ Repairs lines lines')
    (n : Nat) : lines'.foldl lineStep n = lines.foldl lineStep n := by
  induction h generalizing n with
  | nil => rfl
  | cons head _ ih => rw [List.foldl_cons, List.foldl_cons, head.lineStep_eq, ih]

/-- As many closing braces as are open close them. -/
theorem foldl_lineStep_close (n : Nat) : (List.replicate n ['}']).foldl lineStep n = 0 := by
  have hstep (n : Nat) : lineStep (n + 1) ['}'] = n := by
    have hskip : isSkipped (trim ['}']) = false := by decide
    rw [lineStep, hskip]
    rfl
  induction n with
  | zero => rfl
  | succ n ih => rw [List.replicate_succ, List.foldl_cons, hstep, ih]

/-! ## The repaired text -/

section Fixed

variable {cs z : List Char}

/-- The lines of the repaired text. -/
def fixedLines (cs : List Char) : List (List Char) :=
  (repairLines 0 [] (Text.lines cs)).repaired ++ (repairLines 0 [] (Text.lines cs)).closers

theorem fixedLines_ne_nil (cs : List Char) : fixedLines cs ≠ [] :=
  List.append_ne_nil_of_left_ne_nil (repaired_ne_nil cs) _

theorem isSound_of_mem_fixedLines (cs : List Char) : ∀ line ∈ fixedLines cs, IsSound line := by
  refine List.forall_mem_append.mpr ⟨fun line hline => ?_, fun line hline => ?_⟩
  · obtain ⟨_, _, _, _, h⟩ := exists_repairs_of_mem (forall₂_repairs 0 [] _) line hline
    exact isSound_of_repaired h
  · rw [List.eq_of_mem_replicate hline]
    exact ⟨by decide, by decide⟩

theorem newline_not_mem_of_mem_fixedLines : ∀ line ∈ fixedLines cs, '\n' ∉ line := by
  refine List.forall_mem_append.mpr ⟨fun line hline => ?_, fun line hline => ?_⟩
  · obtain ⟨line', hline', h⟩ := exists_repairs_of_mem (forall₂_repairs 0 [] _) line hline
    exact h.newline_not_mem (Text.newline_not_mem_of_mem_lines cs line' hline')
  · rw [List.eq_of_mem_replicate hline]
    decide

theorem closers_eq_nil {front : List (List Char)} (h : fixedLines cs = front ++ [[]]) :
    (repairLines 0 [] (Text.lines cs)).closers = [] := by
  rcases List.eq_nil_or_concat (repairLines 0 [] (Text.lines cs)).closers with
    hnil | ⟨braces, brace, hbraces⟩
  · exact hnil
  · rw [List.concat_eq_append] at hbraces
    have hmem : brace ∈ (repairLines 0 [] (Text.lines cs)).closers := by simp [hbraces]
    have hbrace : brace = ['}'] := List.eq_of_mem_replicate hmem
    rw [fixedLines, hbraces, ← List.append_assoc] at h
    obtain ⟨-, hlast⟩ := List.append_inj' h rfl
    simp [hbrace] at hlast

/-- Repair puts no line break at the end. -/
theorem isLastBreak_fixedLines (h : IsLastBreak cs z) :
    IsLastBreak (joinLines (fixedLines cs)) z := by
  rcases h with rfl | ⟨rfl, hlast⟩
  · exact .inl rfl
  refine .inr ⟨rfl, fun hfixed => hlast ?_⟩
  obtain ⟨front, hfront, hlines⟩ :=
    (Text.getLast?_joinLines_eq_newline_iff newline_not_mem_of_mem_fixedLines).mp hfixed
  have hrepairs := forall₂_repairs 0 [] (Text.lines cs)
  have hclosers := closers_eq_nil hlines
  rw [fixedLines, hclosers, List.append_nil] at hlines
  rw [hlines] at hrepairs
  have hbreak := (Text.getLast?_joinLines_eq_newline_iff
    (Text.newline_not_mem_of_mem_lines cs)).mpr (exists_append_nil_of_repairs hrepairs hfront)
  rwa [Text.joinLines_lines] at hbreak

/-- The closing braces leave no block open. -/
theorem opened_fixedLines (cs : List Char) : (repairLines 0 [] (fixedLines cs)).opened = [] := by
  rw [← List.length_eq_zero_iff, length_opened, fixedLines, List.foldl_append,
    foldl_lineStep_repairs (forall₂_repairs 0 [] _), ← length_opened 0 []]
  exact foldl_lineStep_close _

end Fixed

/-- **Repair at once.** Nothing is found in a repaired text, and repairing it again leaves it as it
is. -/
theorem analyze_again (source : List Char) :
    (analyze (analyze source).fixed).hasIssues = false ∧
      (analyze (analyze source).fixed).diagnostics = [] ∧
      (analyze (analyze source).fixed).fixed = (analyze source).fixed := by
  obtain ⟨cs, z, rfl, hz⟩ := exists_lastBreak source
  have hfixed : (analyze (cs ++ z)).fixed = joinLines (fixedLines cs) ++ z := fixed_eq hz
  have hlines : Text.lines (joinLines (fixedLines cs)) = fixedLines cs :=
    Text.lines_joinLines (fixedLines_ne_nil cs) newline_not_mem_of_mem_fixedLines
  obtain ⟨hsound, hrepaired⟩ :=
    repairLines_of_isSound 0 [] (isSound_of_mem_fixedLines cs)
  have hopened := opened_fixedLines cs
  have hdiagnostics : (analyze (joinLines (fixedLines cs) ++ z)).diagnostics = [] := by
    rw [diagnostics_eq (isLastBreak_fixedLines hz), hlines, hsound, if_pos hopened,
      List.append_nil]
  have hagain : (analyze (joinLines (fixedLines cs) ++ z)).fixed =
      joinLines (fixedLines cs) ++ z := by
    rw [fixed_eq (isLastBreak_fixedLines hz), hlines, hrepaired, Lines.closers, hopened]
    simp
  rw [hfixed]
  exact ⟨by rw [Analysis.hasIssues, hdiagnostics]; rfl, hdiagnostics, hagain⟩

/-- One of each slip; the brace in the comment is passed over. -/
example :
    let source := "while (x = 1) \x7b\n// \x7b\n x = 2".toList
    (analyze source).diagnostics.length = 3 ∧
    (analyze source).fixed = "while (x == 1) \x7b\n// \x7b\n x = 2;\n\x7d".toList := by
  decide +kernel

end Flowchart.Repair
