import Flowchart.Proofs.Fragment.Terminator
import Flowchart.Proofs.Repair.Reported

/-!
# The statement that a semicolon ends

`terminates_of_reported_iff`: where repair puts a semicolon, it goes to the last fragment of the
line if and only if the text up to it ends in a statement's own text.

* `lastKind`: what the last piece of a text is. `lastKind_semicolon`, `lastKind_equals`: a repair
  further up makes no difference to that, so neither do all others together
  (`endsInText_repairedLines`).
-/

namespace Flowchart

open Text (byteLength isBlank isBlankText trim trimEnd joinLines nextLines)

/-! ## The last piece of a text -/

/-- What the last of the pieces is, if there is one. -/
def lastKind (ps : List Piece) : Option PieceKind := ps.getLast?.map Piece.kind

section LastKind

variable {b : Bool} {p q : Piece} {ps qs : List Piece} {cs t w x y : List Char}

theorem endsInText_eq (text : List Char) : endsInText text =
    (lastKind (pieces true text)).any fun kind => Piece.isInner ⟨kind, []⟩ && kind != .comment := by
  rw [endsInText, lastKind, Option.any_map]
  rfl

theorem lastKind_append (hqs : qs ≠ []) (ps : List Piece) : lastKind (ps ++ qs) = lastKind qs := by
  rw [lastKind, List.getLast?_append_of_ne_nil _ hqs, lastKind]

theorem lastKind_cons_congr (kind : PieceKind) (t t' : List Char) (ps : List Piece) :
    lastKind (⟨kind, t⟩ :: ps) = lastKind (⟨kind, t'⟩ :: ps) := by
  cases ps with
  | nil => rfl
  | cons p ps => rw [lastKind, lastKind, List.getLast?_cons_cons, List.getLast?_cons_cons]

theorem pieces_ne_nil (hx : x ≠ []) (b : Bool) : pieces b x ≠ [] := by
  cases x with
  | nil => exact absurd rfl hx
  | cons c x => simp [pieces]

/-- What is on the next lines has the last piece. -/
theorem InnerText.lastKind_line (h : InnerText b t) (hy : y ≠ []) :
    lastKind (pieces b (t ++ '\n' :: y)) = lastKind (pieces true y) := by
  rw [pieces_append_newline fun p hp => (h p hp).2, List.append_cons,
    lastKind_append (pieces_ne_nil hy true)]

/-- One equals sign more makes no difference to where a literal ends. -/
theorem scan_equals {quote : Char} (hq : quote = '"' ∨ quote = '\'')
    (ht : Literal.Waits (· == '\n') quote t) (y : List Char) :
    (Literal.scan (· == '\n') quote (t ++ '=' :: '=' :: y)).2 =
      (Literal.scan (· == '\n') quote (t ++ '=' :: y)).2 := by
  have hequals : '=' ≠ quote ∧ '\\' ≠ quote := by rcases hq with rfl | rfl <;> decide
  have hscan (y : List Char) : (Literal.scan (· == '\n') quote ('=' :: y)).2 =
      (Literal.scan (· == '\n') quote y).2 := by
    rw [Literal.scan_cons hequals.1 (by decide) (by decide)]
  rcases ht with hopen | ⟨t, rfl, hopen⟩
  · rw [hopen, hopen]
    exact hscan _
  · rw [List.append_assoc, List.append_assoc, hopen, hopen, List.singleton_append,
      List.singleton_append, Literal.scan_escape hequals.2 (by decide),
      Literal.scan_escape hequals.2 (by decide)]
    exact hscan _

/-! ## Repairs further up -/

/-- A semicolon at the end of a line. -/
theorem lastKind_semicolon (cs : List Char) (hw : isBlankText w = true) (hn : '\n' ∉ w)
    (hy : y ≠ []) : lastKind (pieces true (cs ++ (';' :: w ++ '\n' :: y))) =
      lastKind (pieces true (cs ++ (w ++ '\n' :: y))) := by
  obtain ⟨init, b, tail, htail, hpieces⟩ := exists_unended true cs
  have hpadding : IsPadding (';' :: w) := IsPadding.singleton.append (.of_blank hw)
  have hblank : IsPadding w := .of_blank hw
  have hflat : '\n' ∉ ';' :: w := by simp [hn]
  have hz := AtLineEnd.newline y
  have hne (x : List Char) : x ++ '\n' :: y ≠ [] := by simp
  rw [hpieces _ (hpadding.separatorFollows hz), hpieces _ (hblank.separatorFollows hz),
    lastKind_append (pieces_ne_nil (by simp) b), lastKind_append (pieces_ne_nil (by simp) b)]
  cases htail with
  | nothing =>
    rw [List.nil_append, List.nil_append, (hpadding.innerText hflat b).lastKind_line hy,
      (hblank.innerText hn b).lastKind_line hy]
  | @literal quote t hq ht =>
    have hold : InnerText b (quote :: (t ++ w)) := .of_waits hq ht hblank hn
    have hnew : InnerText b (quote :: (t ++ ';' :: w)) := .of_waits hq ht hpadding hflat
    have hsame := (hnew.lastKind_line hy).trans (hold.lastKind_line hy).symm
    simpa using hsame
  | line hkind _ hfirst =>
    rw [pieces_line hkind hfirst, pieces_line hkind hfirst, hz.dropWhile_append hflat,
      hz.dropWhile_append hn]
    exact lastKind_cons_congr _ _ _ _
  | block ht =>
    have hstar : '*' ∉ ';' :: w := hpadding.not_mem (by decide) (by decide)
    have hstar' : '*' ∉ w := hblank.not_mem (by decide) (by decide)
    have hslash {x : List Char} (hx : SeparatorFollows x) : x.head? ≠ some '/' := fun h =>
      (hx _ h).not_slash rfl
    rw [pieces_block ht (hslash (hpadding.separatorFollows hz)),
      pieces_block ht (hslash (hblank.separatorFollows hz)),
      Piece.scanComment_of_not_mem hstar, Piece.scanComment_of_not_mem hstar']
    exact lastKind_cons_congr _ _ _ _

/-- A doubled equals sign. -/
theorem lastKind_equals (cs y : List Char) :
    lastKind (pieces true (cs ++ '=' :: '=' :: y)) = lastKind (pieces true (cs ++ '=' :: y)) := by
  obtain ⟨init, b, tail, htail, hpieces⟩ := exists_unended true cs
  have hequals (z : List Char) : SeparatorFollows ('=' :: z) := by
    intro s hs
    obtain rfl := Option.some.inj hs
    exact ⟨by decide, by decide, by decide⟩
  rw [hpieces _ (hequals _), hpieces _ (hequals _),
    lastKind_append (pieces_ne_nil (by simp) b), lastKind_append (pieces_ne_nil (by simp) b)]
  have hsymbol (b : Bool) (z : List Char) :
      pieces b ('=' :: z) = ⟨.symbol, ['=']⟩ :: pieces false z := by
    rw [pieces_symbol (by decide) (by decide) (by simp) (by simp)]
    exact congrArg _ (congrArg (pieces · z) (Bool.and_false b))
  cases htail with
  | nothing =>
    rw [List.nil_append, List.nil_append, hsymbol, hsymbol, hsymbol]
    simp [lastKind]
  | @literal quote t hq ht =>
    obtain ⟨kind, hkind⟩ := exists_pieces_literal hq b
    rw [List.cons_append, List.cons_append, hkind, hkind, scan_equals hq ht]
    exact lastKind_cons_congr _ _ _ _
  | line hkind _ hfirst =>
    rw [pieces_line hkind hfirst, pieces_line hkind hfirst,
      List.dropWhile_cons_of_pos (by decide)]
    exact lastKind_cons_congr _ _ _ _
  | block ht =>
    have hscan (z : List Char) : (Piece.scanComment ('=' :: z)).2 = (Piece.scanComment z).2 := by
      rw [Piece.scanComment_cons fun h => absurd h.1 (by decide)]
    rw [pieces_block ht (by simp), pieces_block ht (by simp), hscan]
    exact lastKind_cons_congr _ _ _ _

end LastKind

namespace Repair

variable {front line line' t y w z : List Char} {before after lines : List (List Char)}
  {source : List Char}

/-- A repaired line. -/
theorem Repairs.lastKind_eq (h : Repairs line line') (hn : '\n' ∉ line) (hy : y ≠ [])
    (front : List Char) : lastKind (pieces true (front ++ (line' ++ '\n' :: y))) =
      lastKind (pieces true (front ++ (line ++ '\n' :: y))) := by
  obtain ⟨offset, ds, h⟩ := h
  cases h with
  | kept => rfl
  | @terminated a t b _ hb =>
    have hflat : '\n' ∉ b := fun hm => hn (List.mem_append_right _ hm)
    simpa using lastKind_semicolon (front ++ a ++ t) hb hflat hy
  | @compared a x e b => simpa using lastKind_equals (front ++ a ++ x) (e ++ b ++ '\n' :: y)

theorem repairs_repairedLine (line : List Char) : Repairs line (repairedLine line) :=
  ⟨0, _, repaired_repairLine 0 line⟩

theorem joinLines_append_ne_nil (ht : t ≠ []) (lines : List (List Char)) :
    joinLines (lines ++ [t]) ≠ [] := by
  cases lines with
  | nil => rwa [List.nil_append, Text.joinLines_singleton]
  | cons line lines =>
    rw [joinLines_cons_append]
    simp

/-- All repaired lines before a text. -/
theorem lastKind_repairedLines (hn : ∀ line ∈ before, '\n' ∉ line) (ht : t ≠ [])
    (front : List Char) :
    lastKind (pieces true (front ++ joinLines (before.map repairedLine ++ [t]))) =
      lastKind (pieces true (front ++ joinLines (before ++ [t]))) := by
  induction before generalizing front with
  | nil => rfl
  | cons line lines ih =>
    obtain ⟨hline, hlines⟩ := List.forall_mem_cons.mp hn
    have hrest := ih hlines (front ++ (repairedLine line ++ ['\n']))
    simp only [List.append_assoc, List.singleton_append] at hrest
    rw [List.map_cons, joinLines_cons_append, joinLines_cons_append, hrest]
    exact (repairs_repairedLine line).lastKind_eq hline (joinLines_append_ne_nil ht lines) front

theorem endsInText_repairedLines (hn : ∀ line ∈ before, '\n' ∉ line) (ht : t ≠ []) :
    endsInText (joinLines (before.map repairedLine ++ [t])) =
      endsInText (joinLines (before ++ [t])) := by
  rw [endsInText_eq, endsInText_eq]
  exact congrArg (Option.any _) (lastKind_repairedLines hn ht [])

/-! ## The line and what stands around it -/

theorem atLineEnd_nextLines {cs : List Char} (hz : IsLastBreak cs z)
    (lines : List (List Char)) : AtLineEnd (nextLines lines ++ z) := by
  cases lines with
  | nil =>
    rcases hz with rfl | ⟨rfl, -⟩
    · exact .newline []
    · exact .nil
  | cons line lines => exact .newline _

theorem getLast?_joinLines (ht : t ≠ []) (before : List (List Char)) :
    (joinLines (before ++ [t])).getLast? = t.getLast? := by
  induction before with
  | nil => rw [List.nil_append, Text.joinLines_singleton]
  | cons line lines ih =>
    rw [joinLines_cons_append, List.append_cons,
      List.getLast?_append_of_ne_nil _ (joinLines_append_ne_nil ht lines), ih]

/-- A line that lacks its semicolon ends in none, nor in a brace. -/
theorem last_of_lacksSemicolon (h : lacksSemicolon line = true) : trimEnd line ≠ [] ∧
    ∀ c ∈ (trimEnd line).getLast?, isBlank c = false ∧ c ≠ ';' ∧ c ≠ '{' ∧ c ≠ '}' := by
  obtain ⟨hskip, hneeds⟩ := Bool.and_eq_true_iff.mp h
  have hne := ne_nil_of_isSkipped (Bool.not_eq_true' _ ▸ hskip)
  obtain ⟨a, b, -, hb, hline⟩ := Text.exists_eq_append_trim line
  have hend : trimEnd line = a ++ trim line := by
    conv => lhs; rw [hline]
    exact Text.trimEnd_between hb (Text.trim_trim line) hne
  refine ⟨by simp [hend, hne], fun c hc => ?_⟩
  rw [hend, List.getLast?_append_of_ne_nil _ hne] at hc
  refine ⟨(Text.trim_eq_self_iff.mp (Text.trim_trim line)).2 c hc, ?_⟩
  simp only [needsSemicolon, Bool.and_eq_true, Bool.not_eq_true', Option.any_eq_false] at hneeds
  simpa [and_assoc] using hneeds.1.1 c hc

theorem terminates_line_iff (h : lacksSemicolon line = true) (hline : line = trimEnd line ++ w)
    (hw : isBlankText w = true) (hn : '\n' ∉ w) (hz : AtLineEnd z) (before : List (List Char)) :
    Terminates (offsetAfter before) (offsetAfter before + byteLength line)
        (joinLines (before ++ [trimEnd line])) (w ++ z) ↔
      endsInText (joinLines (before ++ [trimEnd line])) = true := by
  obtain ⟨hne, hlast⟩ := last_of_lacksSemicolon h
  have hpos := byteLength_pos hne
  have hstop : offsetAfter before + byteLength line =
      byteLength (joinLines (before ++ [trimEnd line]) ++ w) := by
    conv => lhs; rw [hline]
    rw [Text.byteLength_append, Text.byteLength_append, byteLength_joinLines, Nat.add_assoc]
  rw [hstop]
  refine terminates_iff ?_ ?_ hw hn hz
  · rwa [getLast?_joinLines hne]
  · rw [byteLength_joinLines]
    omega

/-- **Semicolons.** Where a missing semicolon is found on a line, the repaired text has one behind
the last character of the line that is not white space. It goes to the last fragment of the line and
changes nothing else if and only if the text up to it ends in a statement's own text. So it is in
the source, where this is the only repair, and in the repaired text. -/
theorem terminates_of_reported_iff (hline : (sourceLines source).1 = before ++ line :: after)
    (hfound : ReportedOn source .missingSemicolon before line) :
    ∃ back front' back', source = joinLines (before ++ [trimEnd line]) ++ back ∧
      front' = joinLines (before.map repairedLine ++ [trimEnd line]) ∧
      (analyze source).fixed = front' ++ ';' :: back' ∧
      (Terminates (offsetAfter before) (offsetAfter before + byteLength line)
          (joinLines (before ++ [trimEnd line])) back ↔
        endsInText (joinLines (before ++ [trimEnd line])) = true) ∧
      (Terminates (offsetAfter (before.map repairedLine))
          (offsetAfter (before.map repairedLine) + byteLength line) front' back' ↔
        endsInText (joinLines (before ++ [trimEnd line])) = true) := by
  have hlacks := (reportedOn_missingSemicolon_iff hline).mp hfound
  obtain ⟨cs, z, rfl, hz⟩ := exists_lastBreak source
  rw [sourceLines_eq hz] at hline
  have hlines : Text.lines cs = before ++ line :: after := hline
  have hn : ∀ line ∈ Text.lines cs, '\n' ∉ line := Text.newline_not_mem_of_mem_lines cs
  rw [hlines] at hn
  obtain ⟨w, hw, hblank, hinsert⟩ := exists_insertSemicolon line
  have hflat : '\n' ∉ w := fun hm =>
    hn line (by simp) (by rw [hblank]; exact List.mem_append_right _ hm)
  let after' := after.map repairedLine ++ (repairLines 0 [] (Text.lines cs)).closers
  refine ⟨w ++ (nextLines after ++ z), _, w ++ (nextLines after' ++ z), ?_, rfl, ?_,
    terminates_line_iff hlacks hblank hw hflat (atLineEnd_nextLines hz after) before, ?_⟩
  · have hcs := Text.joinLines_append_cons before (trimEnd line) w after
    rw [← hblank, ← hlines, Text.joinLines_lines] at hcs
    conv => lhs; rw [hcs]
    simp only [List.append_assoc]
  · have hfixed : fixedLines cs =
        before.map repairedLine ++ (trimEnd line ++ ';' :: w) :: after' := by
      rw [fixedLines, repaired_eq_map, ← hinsert, ← repairedLine_of_lacksSemicolon hlacks]
      simp [hlines, after']
    rw [fixed_eq hz, ← fixedLines, hfixed, Text.joinLines_append_cons]
    simp
  · rw [← endsInText_repairedLines (fun l hl => hn l (by simp [hl]))
      (last_of_lacksSemicolon hlacks).1]
    exact terminates_line_iff hlacks hblank hw hflat (atLineEnd_nextLines hz after') _

/-- A literal that is left open, below a condition that is repaired. -/
theorem terminates_of_reported_literal :
    let source := "while (a = b) \x7b\n  s = \"open \n\x7d".toList
    let before := ["while (a = b) \x7b".toList]
    let line := "  s = \"open ".toList
    (sourceLines source).1 = before ++ line :: ["\x7d".toList] ∧
    ReportedOn source .missingSemicolon before line ∧
    endsInText (joinLines (before ++ [trimEnd line])) = true ∧
    ∃ back front' back', source = joinLines (before ++ [trimEnd line]) ++ back ∧
      front' = joinLines (before.map repairedLine ++ [trimEnd line]) ∧
      (analyze source).fixed = front' ++ ';' :: back' ∧
      (Terminates (offsetAfter before) (offsetAfter before + byteLength line)
          (joinLines (before ++ [trimEnd line])) back ↔
        endsInText (joinLines (before ++ [trimEnd line])) = true) ∧
      (Terminates (offsetAfter (before.map repairedLine))
          (offsetAfter (before.map repairedLine) + byteLength line) front' back' ↔
        endsInText (joinLines (before ++ [trimEnd line])) = true) := by
  intro source before line
  have hline : (sourceLines source).1 = before ++ line :: ["\x7d".toList] := by decide +kernel
  have hfound : ReportedOn source .missingSemicolon before line :=
    (reportedOn_missingSemicolon_iff hline).mpr (by decide +kernel)
  exact ⟨hline, hfound, by decide +kernel, terminates_of_reported_iff hline hfound⟩

/-- The last line of a comment has no fragment, and its semicolon is one. -/
theorem not_terminates_comment :
    let source := "x = 1;\n/* a\n   b */".toList
    let before := ["x = 1;".toList, "/* a".toList]
    let line := "   b */".toList
    (sourceLines source).1 = before ++ [line] ∧
    ReportedOn source .missingSemicolon before line ∧
    (∀ f ∈ tokenize source,
      ¬ f.Meets (offsetAfter before) (offsetAfter before + byteLength line)) ∧
    texts (tokenize source) = ["x = 1;".toList] ∧
    texts (tokenize (analyze source).fixed) = ["x = 1;".toList, [';']] := by
  intro source before line
  have hline : (sourceLines source).1 = before ++ line :: [] := by decide +kernel
  have htokens : tokenize source = [⟨"x = 1;".toList, .between 0 6⟩] := by decide +kernel
  refine ⟨hline, (reportedOn_missingSemicolon_iff hline).mpr (by decide +kernel), ?_,
    by decide +kernel, by decide +kernel⟩
  intro f hf hmeets
  rw [htokens, List.mem_singleton] at hf
  rw [hf] at hmeets
  exact absurd hmeets.2 (by decide +kernel)

end Repair

end Flowchart
