import Flowchart.Proofs.Block.Closing
import Flowchart.Proofs.Fragment.Insertion
import Flowchart.Proofs.Statement.Padding
import Flowchart.Repair

/-!
# Repaired sources

`ofSource_fixed`: a source and its repaired text make the same program, or none, if no condition is
repaired and each semicolon that is put in ends a statement or is lost (`Terminable`).

* `Alike.of_semicolon`: to the reader a statement with a semicolon is the statement.
* `similar_insert`: one semicolon at the end of a line.
* `ofSource_map_terminate`: the semicolons of all lines, the last one first.
* `ofSource_close`: the closing braces at the end.
-/

namespace Flowchart

open Text (isBlankText trim trimEnd joinLines nextLines)

/-! ## A statement and its semicolon -/

section Semicolon

variable {f g : Fragment} {w : List Char}

/-- The statement `f` can do with the semicolon that `g` has: it has none yet if it is shown as it
is, and it prints the same if it prints. -/
def TakesSemicolon (f g : Fragment) : Prop :=
  (Rule.of f [] = .process → f.text.getLast? ≠ some ';') ∧
  (Statement.isOutput f.text = true → Statement.outputText? f.text = Statement.outputText? g.text)

instance (f g : Fragment) : Decidable (TakesSemicolon f g) :=
  inferInstanceAs (Decidable (_ ∧ _))

/-- Only the texts of the two statements matter. -/
theorem TakesSemicolon.congr {f' g' : Fragment} (h : TakesSemicolon f g) (hf : f'.text = f.text)
    (hg : g'.text = g.text) : TakesSemicolon f' g' := by
  have hrule : Rule.of f' [] = Rule.of f [] := (Block.Alike.of_text hf).rule rfl
  rwa [TakesSemicolon, hrule, hf, hg]

theorem ofProcess_semicolon (hblank : isBlankText w = true) {t : List Char}
    (h : t.getLast? ≠ some ';') : Node.ofProcess (t ++ (w ++ [';'])) = Node.ofProcess t := by
  have hlast : (t ++ (w ++ [';'])).getLast? = some ';' := by simp
  have hdrop : (t ++ (w ++ [';'])).dropLast = t ++ w := by
    rw [← List.append_assoc, List.dropLast_concat]
  simp only [Node.ofProcess, hlast, h, ↓reduceIte, hdrop, Text.trimEnd_append_blank hblank]

/-- To the reader a statement with its semicolon is the statement. -/
theorem Block.Alike.of_semicolon (h : TakesSemicolon f g) (ho : Ordinary f.text)
    (hblank : isBlankText w = true) (hg : g.text = f.text ++ (w ++ [';'])) : Block.Alike f g := by
  have hw : IsPadding (w ++ [';']) := .append (.of_blank hblank) .singleton
  have hheader : ∀ k ∈ ["if", "while", "for"], k.toList.all isWordChar = true := by decide
  have hstarts {k : String} (hk : k.toList.all isWordChar = true) :
      Statement.startsWithKeyword k f.text = Statement.startsWithKeyword k g.text := by
    rw [hg, Statement.startsWithKeyword_append hk hw]
  have hlast : g.text.getLast? = some ';' := by simp [hg]
  have hne {t : List Char} (ht : t.getLast? ≠ some ';') : (g.text == t) = false := by
    rw [beq_eq_false_iff_ne]
    rintro rfl
    exact ht hlast
  have hparen := Statement.parenthesized_append hw f.text
  constructor
  case isOpen =>
    rw [Fragment.isOpen, Fragment.isOpen, hne (by decide), beq_eq_false_iff_ne.mpr ho.ne_open]
  case isClose =>
    rw [Fragment.isClose, Fragment.isClose, hne (by decide), beq_eq_false_iff_ne.mpr ho.ne_close]
  case isElse =>
    rw [Fragment.isElse, Fragment.isElse, hne (by decide), beq_eq_false_iff_ne.mpr ho.ne_else]
  case isDeclaration => rw [hg, Statement.isDeclaration_append hw]
  case header => exact fun k hk => hstarts (hheader k hk)
  case isOutput => exact hstarts (by decide)
  case isInput => exact hstarts (by decide)
  case isStop => rw [hg, Statement.containsKeyword_append hw]
  case branchCondition => rw [Node.branchCondition, Node.branchCondition, hg, hparen]
  case loopCondition =>
    rw [Node.loopCondition, Node.loopCondition, ← hstarts (hheader "for" (by simp)), hg, hparen,
      Statement.forCondition?_append hw]
  case ofInput => rw [Node.ofInput, Node.ofInput, hg, Statement.inputTarget?_append hw]
  case outputText? => exact h.2
  case ofProcess => exact fun hr => by rw [hg, ofProcess_semicolon hblank (h.1 hr)]

end Semicolon

/-! ## One semicolon -/

/-- A semicolon after the text is lost in a comment or directive, or it goes to the last statement
of the text. -/
def Terminable (cs : List Char) : Prop :=
  texts (tokenize (cs ++ [';'])) = texts (tokenize cs) ∨
    (tokenize (cs ++ [';'])).length = (tokenize cs).length ∧
    ∀ f ∈ (tokenize cs).getLast?, ∀ g ∈ (tokenize (cs ++ [';'])).getLast?, TakesSemicolon f g

instance (cs : List Char) : Decidable (Terminable cs) := inferInstanceAs (Decidable (_ ∨ _))

theorem exists_getLast?_of_texts {fs : List Fragment} {before : List (List Char)} {t : List Char}
    (h : texts fs = before ++ [t]) : ∃ f ∈ fs.getLast?, f.text = t := by
  obtain ⟨as, bs, rfl, -, hbs⟩ := List.map_eq_append_iff.mp h
  obtain ⟨f, rfl, ht⟩ := List.map_eq_singleton_iff.mp hbs
  exact ⟨f, by simp, ht⟩

/-- Fragments with the same texts but for one, which is alike. -/
theorem Block.Similar.of_texts_append {fs gs : List Fragment} {before after : List (List Char)}
    {s t : List Char} (hf : texts fs = before ++ s :: after) (hg : texts gs = before ++ t :: after)
    (h : ∀ f g : Fragment, f.text = s → g.text = t → Block.Alike f g) : Block.Similar fs gs := by
  obtain ⟨fs, fs', rfl, hfs, hfs'⟩ := List.map_eq_append_iff.mp hf
  obtain ⟨gs, gs', rfl, hgs, hgs'⟩ := List.map_eq_append_iff.mp hg
  obtain ⟨f, fs', rfl, hs, hfs'⟩ := List.map_eq_cons_iff.mp hfs'
  obtain ⟨g, gs', rfl, ht, hgs'⟩ := List.map_eq_cons_iff.mp hgs'
  exact .append (hfs.trans hgs.symm) (.cons (h f g hs ht) (.of_texts (hfs'.trans hgs'.symm)))

section Insert

variable {cs w z text : List Char} {before : List (List Char)}

/-- White space at the end of the line. -/
theorem EndsInStatement.texts_blank (h : EndsInStatement cs before text) (hw : isBlankText w = true)
    (hn : '\n' ∉ w) (hz : AtLineEnd z) :
    texts (tokenize (cs ++ w ++ z)) = before ++ (finished text ++ texts (tokenize z)) := by
  rw [h.texts_eq w z (.of_blank hw) hn hz, finished_append_blank hw, List.append_assoc]

/-- A semicolon and white space at the end of the line. -/
theorem EndsInStatement.texts_semicolon (h : EndsInStatement cs before text)
    (hw : isBlankText w = true) (hn : '\n' ∉ w) (hz : AtLineEnd z) :
    texts (tokenize (cs ++ (';' :: w) ++ z)) =
      before ++ trim (text ++ [';']) :: texts (tokenize z) := by
  have hpadding : IsPadding (';' :: w) := IsPadding.singleton.append (.of_blank hw)
  have hfinished : finished (text ++ ';' :: w) = [trim (text ++ [';'])] := by
    rw [List.append_cons, finished_append_blank hw, finished_semicolon]
  rw [h.texts_eq _ z hpadding (by simp [hn]) hz, hfinished, List.append_assoc,
    List.singleton_append]

/-- A semicolon at the end of a line, white space after it left where it is. -/
theorem similar_insert (h : Terminable cs) (hw : isBlankText w = true) (hn : '\n' ∉ w)
    (hz : AtLineEnd z) :
    Block.Similar (tokenize (cs ++ w ++ z)) (tokenize (cs ++ (';' :: w) ++ z)) := by
  rcases endsInStatement_or_endsInComment cs with ⟨before, text, hcs⟩ | hcs
  · have hold := hcs.texts_blank (w := []) rfl (by simp) .nil
    have hnew := hcs.texts_semicolon (w := []) rfl (by simp) .nil
    have holdz := hcs.texts_blank hw hn hz
    have hnewz := hcs.texts_semicolon hw hn hz
    rw [texts_tokenize_nil, List.append_nil, List.append_nil, List.append_nil] at hold
    rw [texts_tokenize_nil, List.append_nil] at hnew
    rcases h with heq | ⟨hlen, hlast⟩
    · refine .of_texts ?_
      rw [hnew, hold] at heq
      rw [holdz, hnewz, ← List.append_cancel_left heq, List.singleton_append]
    · -- A semicolon that begins a statement of its own would be one fragment more.
      have htext : trim text ≠ [] := by
        intro hblank
        have hlengths : (texts (tokenize (cs ++ [';']))).length = (texts (tokenize cs)).length := by
          simpa [texts] using hlen
        rw [hold, hnew] at hlengths
        simp [finished, hblank] at hlengths
      have hfinished : finished text = [trim text] := by simp [finished, htext]
      obtain ⟨-, v, hv, -, htrim⟩ := Text.exists_trim_concat htext (c := ';') (by decide)
      rw [hfinished] at hold holdz
      rw [htrim] at hnew hnewz
      refine .of_texts_append holdz hnewz fun f g hf hg => ?_
      obtain ⟨f', hf', htf⟩ := exists_getLast?_of_texts hold
      obtain ⟨g', hg', htg⟩ := exists_getLast?_of_texts hnew
      have htakes : TakesSemicolon f g :=
        (hlast f' hf' g' hg').congr (hf.trans htf.symm) (hg.trans htg.symm)
      exact .of_semicolon htakes (hf ▸ hcs.ordinary.resolve_left htext) hv (by rw [hf, hg])
  · refine .of_texts ?_
    have hpadding : IsPadding (';' :: w) := IsPadding.singleton.append (.of_blank hw)
    rw [hcs.texts_eq _ z hpadding (by simp [hn]) hz, hcs.texts_eq w z (.of_blank hw) hn hz]

end Insert

/-! ## Semicolons of all lines -/

namespace Repair

/-- A semicolon is put in at the end of the line. -/
def lacksSemicolon (line : List Char) : Bool :=
  !isSkipped (trim line) && needsSemicolon (trim line)

/-- The line with a semicolon where it lacks one. -/
def terminate (line : List Char) : List Char :=
  if lacksSemicolon line then insertSemicolon line else line

theorem exists_insertSemicolon (line : List Char) : ∃ w, isBlankText w = true ∧
    line = trimEnd line ++ w ∧ insertSemicolon line = trimEnd line ++ ';' :: w := by
  refine ⟨line.rtakeWhile Text.isBlank, ?_, ?_, rfl⟩
  · exact Text.isBlankText_iff.mpr fun c hc => List.mem_rtakeWhile_imp hc
  · rw [Text.trimEnd_eq_rdropWhile, List.rdropWhile_append_rtakeWhile]

/-- A line in which no condition is repaired. -/
theorem repairLine_eq {offset : Nat} {line : List Char}
    (h : ∀ d ∈ (repairLine offset line).1, d.finding ≠ some .assignmentInCondition) :
    (repairLine offset line).2 = terminate line := by
  unfold repairLine at h ⊢
  unfold terminate lacksSemicolon
  cases hskip : isSkipped (trim line) with
  | true => simp [hskip]
  | false =>
    have hassigns : assignsInCondition (trim line) = false := by
      by_contra hne
      rw [Bool.not_eq_false] at hne
      simp only [hskip, hne, Bool.false_eq_true, ↓reduceIte] at h
      exact h _ (List.mem_append_right _ (List.mem_singleton_self _)) rfl
    cases hneeds : needsSemicolon (trim line) <;> simp [hskip, hneeds, hassigns]

theorem repaired_eq {offset : Nat} {opened : List Nat} {lines : List (List Char)}
    (h : ∀ d ∈ (repairLines offset opened lines).diagnostics,
      d.finding ≠ some .assignmentInCondition) :
    (repairLines offset opened lines).repaired = lines.map terminate := by
  induction lines generalizing offset opened with
  | nil => rfl
  | cons line lines ih =>
    rw [repairLines] at h ⊢
    obtain ⟨hline, hlines⟩ := List.forall_mem_append.mp h
    exact congrArg₂ List.cons (repairLine_eq hline) (ih hlines)

/-- Each semicolon that is put into the lines, in their order, leaves the program as it is. The
induction puts in the last one first: the lines before it are those of the source. -/
theorem ofSource_map_terminate {before lines : List (List Char)} (hn : ∀ line ∈ lines, '\n' ∉ line)
    (h : ∀ done line rest, lines = done ++ line :: rest → lacksSemicolon line = true →
      Terminable (joinLines (before ++ done ++ [trimEnd line]))) (limit : Nat) (p : Program) :
    Program.ofSource limit (joinLines (before ++ lines.map terminate)) = .ok p ↔
      Program.ofSource limit (joinLines (before ++ lines)) = .ok p := by
  induction lines generalizing before with
  | nil => rfl
  | cons line lines ih =>
    obtain ⟨hline, hlines⟩ := List.forall_mem_cons.mp hn
    have hrest :
        Program.ofSource limit (joinLines (before ++ line :: lines.map terminate)) = .ok p ↔
        Program.ofSource limit (joinLines (before ++ line :: lines)) = .ok p := by
      rw [List.append_cons, List.append_cons before line lines]
      refine ih hlines fun done m rest hsplit hm => ?_
      rw [List.append_assoc before]
      exact h (line :: done) m rest (by rw [hsplit]; rfl) hm
    rw [← hrest, List.map_cons, terminate]
    split
    next hlacks =>
      obtain ⟨w, hw, hsource, hinsert⟩ := exists_insertSemicolon line
      have hterminable := h [] line lines rfl hlacks
      rw [List.append_nil] at hterminable
      have hflat : '\n' ∉ w := fun hm => hline (by rw [hsource]; exact List.mem_append_right _ hm)
      have hsimilar := similar_insert hterminable hw hflat (.nextLines (lines.map terminate))
      rw [← Text.joinLines_append_cons, ← Text.joinLines_append_cons, ← hsource,
        ← hinsert] at hsimilar
      exact (hsimilar.ofFragments_iff limit p).symm
    next => rfl

/-! ## Closing braces -/

/-- Closing braces on lines of their own at the end leave the program as it is. -/
theorem ofSource_close (cs : List Char) {closers : List (List Char)} (h : ∀ l ∈ closers, l = ['}'])
    (limit : Nat) (p : Program) :
    Program.ofSource limit (cs ++ nextLines closers) = .ok p ↔
      Program.ofSource limit cs = .ok p := by
  cases closers with
  | nil => rw [nextLines, List.append_nil]
  | cons l ls =>
    rw [nextLines]
    have hstar : '*' ∉ joinLines (l :: ls) := by
      intro hm
      rcases Text.mem_joinLines hm with hc | ⟨m, hm, hc⟩
      · exact absurd hc (by decide)
      · rw [h m hm] at hc
        exact absurd hc (by decide)
    rcases texts_tokenize_append_newline cs hstar with heq | heq
    · exact (Block.Similar.of_texts heq).ofFragments_iff limit p
    · rw [texts_tokenize_closers h] at heq
      obtain ⟨fs, gs, hsplit, hfs, hgs⟩ := List.map_eq_append_iff.mp heq
      have hclose : ∀ g ∈ gs, g.isClose = true := isClose_of_texts h hgs
      have hsimilar : Block.Similar (fs ++ gs) (tokenize cs ++ []) :=
        .append hfs (.ends hclose (by simp))
      rw [List.append_nil, ← hsplit] at hsimilar
      exact hsimilar.ofFragments_iff limit p

theorem ofSource_append_newline (cs : List Char) (limit : Nat) (p : Program) :
    Program.ofSource limit (cs ++ ['\n']) = .ok p ↔ Program.ofSource limit cs = .ok p := by
  have heq : texts (tokenize (cs ++ ['\n'])) = texts (tokenize cs) := by
    rcases texts_tokenize_append_newline cs (z := []) (by simp) with h | h
    · exact h
    · rw [h, texts_tokenize_nil, List.append_nil]
  exact (Block.Similar.of_texts heq).ofFragments_iff limit p

/-! ## All of a source -/

/-- `z` is the line break at the end of the text `cs ++ z`, or nothing if it does not end with one.
-/
def IsLastBreak (cs z : List Char) : Prop := z = ['\n'] ∨ z = [] ∧ cs.getLast? ≠ some '\n'

theorem exists_lastBreak (source : List Char) : ∃ cs z, source = cs ++ z ∧ IsLastBreak cs z := by
  by_cases h : source.getLast? = some '\n'
  · obtain ⟨cs, rfl⟩ := List.getLast?_eq_some_iff.mp h
    exact ⟨cs, ['\n'], rfl, .inl rfl⟩
  · exact ⟨source, [], (List.append_nil _).symm, .inr ⟨rfl, h⟩⟩

theorem sourceLines_eq {cs z : List Char} (h : IsLastBreak cs z) :
    sourceLines (cs ++ z) = (Text.lines cs, !z.isEmpty) := by
  rcases h with rfl | ⟨rfl, hlast⟩
  · have hlines : Text.lines (cs ++ ['\n']) = Text.lines cs ++ [[]] :=
      List.splitOn_append_cons_self cs []
    rw [sourceLines, if_pos (by simp), hlines, List.dropLast_concat]
    rfl
  · rw [List.append_nil, sourceLines, if_neg hlast]
    rfl

theorem exists_sourceLines (source : List Char) : ∃ cs,
    (sourceLines source = (Text.lines cs, false) ∧ source = cs) ∨
    (sourceLines source = (Text.lines cs, true) ∧ source = cs ++ ['\n']) := by
  obtain ⟨cs, z, rfl, hz⟩ := exists_lastBreak source
  refine ⟨cs, ?_⟩
  rw [sourceLines_eq hz]
  rcases hz with rfl | ⟨rfl, -⟩
  · exact .inr ⟨rfl, rfl⟩
  · exact .inl ⟨rfl, List.append_nil cs⟩

/-- **Repair.** Where no condition is repaired and each semicolon that is put in ends a statement or
is lost, the repaired text makes the program of the source, or fails as well. -/
theorem ofSource_fixed (source : List Char)
    (hcompare : ∀ d ∈ (analyze source).diagnostics, d.finding ≠ some .assignmentInCondition)
    (hterminable : ∀ before line after, (sourceLines source).1 = before ++ line :: after →
      lacksSemicolon line = true → Terminable (joinLines (before ++ [trimEnd line])))
    (limit : Nat) (p : Program) :
    Program.ofSource limit (analyze source).fixed = .ok p ↔
      Program.ofSource limit source = .ok p := by
  obtain ⟨cs, h⟩ := exists_sourceLines source
  have hlines : (sourceLines source).1 = Text.lines cs := by
    rcases h with ⟨h, -⟩ | ⟨h, -⟩ <;> rw [h]
  rw [hlines] at hterminable
  have hrepaired : (repairLines 0 [] (Text.lines cs)).repaired = (Text.lines cs).map terminate := by
    refine repaired_eq fun d hd => hcompare d ?_
    rw [← hlines] at hd
    exact List.mem_append_left _ hd
  have hne : (Text.lines cs).map terminate ≠ [] := by simp [Text.lines]
  have hclosed : Program.ofSource limit (joinLines ((repairLines 0 [] (Text.lines cs)).repaired ++
      (repairLines 0 [] (Text.lines cs)).opened.reverse.map fun _ => ['}'])) = .ok p ↔
        Program.ofSource limit cs = .ok p := by
    have hterminated : Program.ofSource limit (joinLines ([] ++ (Text.lines cs).map terminate)) =
        .ok p ↔ Program.ofSource limit (joinLines ([] ++ Text.lines cs)) = .ok p :=
      ofSource_map_terminate (Text.newline_not_mem_of_mem_lines cs) (by simpa using hterminable)
        limit p
    rw [List.nil_append, List.nil_append, Text.joinLines_lines] at hterminated
    rw [hrepaired, Text.joinLines_append hne, ofSource_close _ (by simp), hterminated]
  rcases h with ⟨h, rfl⟩ | ⟨h, rfl⟩
  · simp only [analyze, h]
    exact hclosed
  · simp only [analyze, h]
    exact ((ofSource_append_newline _ limit p).trans hclosed).trans
      (ofSource_append_newline cs limit p).symm

/-- A statement without its semicolon, another one before a comment, and a block that is open at the
end. -/
theorem ofSource_fixed_open :
    let source := "x = 1\nif (x == 2) \x7b\n  printf(\"hi\") // two\n".toList
    (analyze source).fixed = "x = 1;\nif (x == 2) \x7b\n  printf(\"hi\") // two;\n\x7d\n".toList ∧
    (Program.ofSource 64 (analyze source).fixed = .ok (.ofNodes [.step .process "x = 1",
      .branch "x == 2" [.step .io "hi"] []]) ↔
    Program.ofSource 64 source = .ok (.ofNodes [.step .process "x = 1",
      .branch "x == 2" [.step .io "hi"] []])) := by
  intro source
  have hlines : (sourceLines source).1 = ["x = 1".toList, "if (x == 2) \x7b".toList,
    "  printf(\"hi\") // two".toList] := by decide +kernel
  refine ⟨by decide +kernel, ofSource_fixed source (by decide +kernel) ?_ _ _⟩
  rw [hlines]
  intro before line after hsplit
  match before with
  | [] =>
    obtain ⟨rfl, -⟩ := List.cons.inj hsplit
    decide +kernel
  | [_] =>
    obtain ⟨rfl, hsecond⟩ := List.cons.inj hsplit
    obtain ⟨rfl, -⟩ := List.cons.inj hsecond
    decide +kernel
  | [_, _] =>
    obtain ⟨rfl, hsecond⟩ := List.cons.inj hsplit
    obtain ⟨rfl, hthird⟩ := List.cons.inj hsecond
    obtain ⟨rfl, -⟩ := List.cons.inj hthird
    decide +kernel
  | _ :: _ :: _ :: before => simp at hsplit

/-- The last line of a comment is taken for a statement: its semicolon is a statement of its own. -/
theorem ofSource_fixed_comment :
    let source := "x = 1;\n/* a\n   b */".toList
    (∀ d ∈ (analyze source).diagnostics, d.finding ≠ some .assignmentInCondition) ∧
    Program.ofSource 64 source = .ok (.ofNodes [.step .process "x = 1"]) ∧
    Program.ofSource 64 (analyze source).fixed =
      .ok (.ofNodes [.step .process "x = 1", .step .process ""]) ∧
    Program.ofSource 64 (analyze source).fixed ≠ Program.ofSource 64 source := by
  intro source
  have htokens : tokenize source = [⟨"x = 1;".toList, .between 0 6⟩] := by decide +kernel
  have hfixed : tokenize (analyze source).fixed = [⟨"x = 1;".toList, .between 0 6⟩,
    ⟨[';'], .between 19 20⟩] := by decide +kernel
  have hreads : Block.Reads 64 0 (.block (tokenize source)) [.step .process "x = 1"] [] := by
    rw [htokens]
    exact .cons rfl rfl (.process (by decide +kernel)) .nil
  have hreads' : Block.Reads 64 0 (.block (tokenize (analyze source).fixed))
      [.step .process "x = 1", .step .process ""] [] := by
    rw [hfixed]
    exact .cons rfl rfl (.process (by decide +kernel))
      (.cons rfl rfl (.process (by decide +kernel)) .nil)
  have hsource : Program.ofSource 64 source = .ok (.ofNodes [.step .process "x = 1"]) := by
    rw [Program.ofSource, Program.ofFragments, Block.reads_block_iff.mpr hreads]
    rfl
  have hrepaired : Program.ofSource 64 (analyze source).fixed =
      .ok (.ofNodes [.step .process "x = 1", .step .process ""]) := by
    rw [Program.ofSource, Program.ofFragments, Block.reads_block_iff.mpr hreads']
    rfl
  refine ⟨by decide +kernel, hsource, hrepaired, fun h => ?_⟩
  rw [hsource, hrepaired] at h
  have hcount := congrArg (Program.count ·) (Except.ok.inj h)
  exact absurd hcount (by decide)

end Repair

end Flowchart
