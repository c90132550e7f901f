import Flowchart.Proofs.Code.Lines

/-!
# Rules and labels of lines

* `of_eq_of_word`: the rule of a text that begins with a word depends on the word.
* `of_headed_if`, `of_loopLine`, `of_output`, `of_input`, `of_stop`, `of_process`: the rule that
  each line of code falls under.
* `branchCondition_headed`, `loopCondition_line`, `ofOutputs_line`, `ofInput_line`,
  `ofProcess_line`: the label that it gives.
-/

namespace Flowchart

open Text (isBlank trim)

/-! ## Rules -/

section Rules

variable {f : Fragment} {rest : List Fragment} {w t : List Char} {s : Char}

/-- A text begins with a keyword if and only if that is its first word. -/
theorem startsWithKeyword_word {keyword : String} (hk : keyword.toList.all isWordChar = true)
    (hw : w.all isWordChar = true) (hs : isWordChar s = false) :
    Statement.startsWithKeyword keyword (w ++ s :: t) = decide (w = keyword.toList) := by
  rw [Bool.eq_iff_iff, decide_eq_true_iff, Statement.startsWithKeyword, Bool.and_eq_true]
  constructor
  · rintro ⟨hbegins, hnext⟩
    obtain ⟨r, hr⟩ := List.isPrefixOf_iff_prefix.mp hbegins
    rw [← hr, List.drop_left] at hnext
    have hrest : ∀ c ∈ r.head?, isWordChar c = false := by
      intro c hc
      simpa [Option.mem_def.mp hc] using hnext
    have htake := (takeWhile_word (List.all_eq_true.mp hk) hrest).1
    rwa [hr, (takeWhile_word (List.all_eq_true.mp hw) (by simpa using hs)).1] at htake
  · rintro rfl
    refine ⟨List.isPrefixOf_iff_prefix.mpr (List.prefix_append ..), ?_⟩
    simp [hs]

theorem isDeclaration_word (hw : w.all isWordChar = true) (hs : isWordChar s = false)
    (hdecl : w ∉ Statement.typeKeywords.map String.toList) :
    Statement.isDeclaration (w ++ s :: t) = false := by
  have hnone :
      Statement.typeKeywords.any (Statement.startsWithKeyword · (w ++ s :: t)) = false := by
    rw [List.any_eq_false]
    intro keyword hmem
    have hall : Statement.typeKeywords.all (·.toList.all isWordChar) = true := by decide
    rw [startsWithKeyword_word (List.all_eq_true.mp hall keyword hmem) hw hs]
    have hne : w ≠ keyword.toList := fun h => hdecl (h ▸ List.mem_map_of_mem hmem)
    simpa using hne
  rw [Statement.isDeclaration, hnone, Bool.false_and]

theorem isOutput_word (hw : w.all isWordChar = true) (hs : isWordChar s = false) :
    Statement.isOutput (w ++ s :: t) = decide (w = "printf".toList) :=
  startsWithKeyword_word (by decide) hw hs

theorem isInput_word (hw : w.all isWordChar = true) (hs : isWordChar s = false) :
    Statement.isInput (w ++ s :: t) = decide (w = "scanf".toList) :=
  startsWithKeyword_word (by decide) hw hs

/-- The rule of a text by its first word, if that is not the name of a type. -/
theorem of_eq_of_word (hf : f.text = w ++ s :: t) (hw : w.all isWordChar = true)
    (hs : isWordChar s = false) (hdecl : w ∉ Statement.typeKeywords.map String.toList) :
    Rule.of f rest =
      if w = "if".toList then .branch
      else if w = "while".toList ∨ w = "for".toList then .loop
      else if w = "printf".toList then
        if rest.head?.any (Statement.isInput ·.text) then .promptedInput else .output
      else if w = "scanf".toList then .input
      else if Statement.containsKeyword "return" f.text then .stop
      else .process := by
  have hstart {keyword : String} (hk : keyword.toList.all isWordChar = true) :
      Statement.startsWithKeyword keyword f.text = decide (w = keyword.toList) := by
    rw [hf]
    exact startsWithKeyword_word hk hw hs
  have hout : Statement.isOutput f.text = decide (w = "printf".toList) := hf ▸ isOutput_word hw hs
  have hin : Statement.isInput f.text = decide (w = "scanf".toList) := hf ▸ isInput_word hw hs
  have hdeclaration : Statement.isDeclaration f.text = false := by
    rw [hf]
    exact isDeclaration_word hw hs hdecl
  rw [Rule.of, hdeclaration, hstart (by decide), hstart (by decide), hstart (by decide), hout, hin]
  by_cases hp : w = "printf".toList
  · subst hp
    rfl
  · simp only [hp, decide_false, Bool.false_and, Bool.false_eq_true, ↓reduceIte, Bool.or_eq_true,
      decide_eq_true_eq]

theorem of_headed_if (hf : f.text = headed "if" t) : Rule.of f rest = .branch := by
  rw [of_eq_of_word hf (by decide) (by decide) (by decide), if_pos rfl]

theorem of_loopLine {header : LoopHeader} (hf : f.text = header.line) :
    Rule.of f rest = .loop := by
  cases header with
  | whileTrue condition =>
    rw [of_eq_of_word hf (by decide) (by decide) (by decide), if_neg (by decide),
      if_pos (by decide)]
  | forClauses first condition next =>
    rw [of_eq_of_word hf (by decide) (by decide) (by decide), if_neg (by decide),
      if_pos (by decide)]

theorem of_output (hf : f.text = (Simple.output t).line)
    (hnext : ∀ g ∈ rest.head?, Statement.isInput g.text = false) : Rule.of f rest = .output := by
  have hany : rest.head?.any (Statement.isInput ·.text) = false := by
    cases rest with
    | nil => rfl
    | cons g gs => exact hnext g rfl
  rw [Simple.line_output] at hf
  rw [of_eq_of_word hf (by decide) (by decide) (by decide), if_neg (by decide),
    if_neg (by decide), if_pos rfl, hany]
  rfl

theorem of_input (hf : f.text = (Simple.input t).line) : Rule.of f rest = .input := by
  rw [Simple.line_input] at hf
  rw [of_eq_of_word hf (by decide) (by decide) (by decide), if_neg (by decide),
    if_neg (by decide), if_neg (by decide), if_pos rfl]

theorem of_stop (hf : f.text = (Simple.stop t).line) : Rule.of f rest = .stop := by
  rw [Simple.line_stop] at hf
  have hreturn : Statement.containsKeyword "return" f.text = true := by
    rw [hf]
    exact containsKeyword_return _
  rw [of_eq_of_word hf (by decide) (by decide) (by decide), if_neg (by decide),
    if_neg (by decide), if_neg (by decide), if_neg (by decide), if_pos hreturn]

/-- Whether no other rule applies depends on the text alone. -/
theorem of_process (h : Rule.of ⟨t, .emptyAt 0⟩ [] = .process) (hf : f.text = t) :
    Rule.of f rest = .process := by
  unfold Rule.of at h ⊢
  grind

end Rules

/-! ## Labels -/

section Labels

variable {t : List Char}

theorem PlainText.unquoted (h : PlainText t) : Unquoted t := by
  intro c hc
  have hm := h.unmarked c hc
  simp only [markers, List.mem_cons, List.not_mem_nil, or_false, not_or] at hm
  exact ⟨hm.2.2.2.2.1, hm.2.2.2.2.2⟩

theorem parenthesized_headed {keyword : String} (hk : '(' ∉ keyword.toList) (ht : Unquoted t)
    (hg : groupsAfter 0 t = some 0) : Statement.parenthesized (headed keyword t) = some t := by
  have hheaded : headed keyword t = (keyword.toList ++ [' ']) ++ '(' :: (t ++ [')']) := by
    simp [headed]
  rw [hheaded]
  exact parenthesized_group (by simpa using hk) ht hg

theorem branchCondition_headed (h : PlainText t) :
    Node.branchCondition (headed "if" t) = String.ofList t := by
  rw [Node.branchCondition, parenthesized_headed (by decide) h.unquoted h.balanced]
  rfl

theorem loopCondition_line {header : LoopHeader} (h : header.Valid) :
    Node.loopCondition header.line = String.ofList header.condition := by
  cases header with
  | whileTrue condition =>
    have hfor : Statement.startsWithKeyword "for" (headed "while" condition) = false :=
      startsWithKeyword_word (by decide) (by decide) (by decide)
    rw [LoopHeader.line, Node.loopCondition, hfor,
      parenthesized_headed (by decide) h.unquoted h.balanced]
    rfl
  | forClauses first condition next =>
    obtain ⟨hf, hc, hn, hne, htrim⟩ := h
    have hfor : Statement.startsWithKeyword "for"
        (headed "for" (first ++ ';' :: ' ' :: (condition ++ ';' :: ' ' :: next))) = true :=
      startsWithKeyword_word (by decide) (by decide) (by decide)
    have hunquoted : Unquoted (first ++ ';' :: ' ' :: (condition ++ ';' :: ' ' :: next)) := by
      unfold Unquoted
      simp only [List.forall_mem_append, List.forall_mem_cons]
      exact ⟨hf.unquoted, by decide, by decide, hc.unquoted, by decide, by decide, hn.unquoted⟩
    have hgroups : groupsAfter 0 (first ++ ';' :: ' ' :: (condition ++ ';' :: ' ' :: next)) =
        some 0 := by
      simp [groupsAfter_append, groupsAfter_cons_flat, hf.balanced, hc.balanced, hn.balanced]
    have hsemicolon {t : List Char} (ht : PlainText t) : ';' ∉ t := fun hm =>
      ht.unmarked _ hm List.mem_cons_self
    have hcondition := forCondition?_clauses
      (parenthesized_headed (by decide : '(' ∉ "for".toList) hunquoted hgroups)
      (hsemicolon hf) (hsemicolon hc) hne htrim
    rw [LoopHeader.line, Node.loopCondition, hfor, hcondition]
    rfl

theorem ofOutputs_line {f : Fragment} (hf : f.text = (Simple.output t).line)
    (h : (Simple.output t).Valid) : Node.ofOutputs [f] = [(Simple.output t).node] := by
  obtain ⟨hne, htrim, hm⟩ := h
  have htext : Statement.outputText? f.text = some t := by
    rw [hf, Simple.line_output, outputText?_call fun c hc => ⟨(hm c hc).1, (hm c hc).2.1⟩, htrim]
  have hshown : (some t).filter (!·.isEmpty) = some t := by simp [hne]
  simp only [Node.ofOutputs, List.filterMap_cons, List.filterMap_nil, htext, hshown]
  rfl

theorem ofInput_line (h : (Simple.input t).Valid) :
    Node.ofInput (Simple.input t).line = (Simple.input t).node := by
  rw [Node.ofInput, Simple.line_input, inputTarget?_call h.1 h.2.2]
  rfl

theorem ofProcess_line (h : (Simple.process t).Valid) :
    Node.ofProcess (Simple.process t).line = (Simple.process t).node := by
  have hlast : (t ++ [';']).getLast? = some ';' := List.getLast?_concat
  have htrim : Text.trimEnd t = t := Text.trimEnd_eq_self_iff.mpr fun c hc => (h.2.1 c hc).2
  rw [Node.ofProcess, Simple.line, if_pos hlast, List.dropLast_concat, htrim]
  rfl

end Labels

end Flowchart
