import Mathlib.Data.List.Infix
import Flowchart.Proofs.Statement.Group
import Flowchart.Proofs.Text

/-!
# Clauses of a header

`forCondition?_clause_iff`: a header of three clauses shows the middle one if no literal of it has a
semicolon and, where the first clause has one, what comes after that is the same.

* `Balanced`: parentheses of lexemes that match. `insideGroup_balanced`: they are read past.
* `IsClause`: what may stand between two semicolons of a header.
* `parenthesized_clauses`: the group of a header is its three clauses, literals with semicolons and
  parentheses included. `getElem?_one_splitOn`: the second piece of them between semicolons.
-/

namespace Flowchart.Statement

open Text (trim)

/-! ## Matching parentheses -/

/-- No front part closes more groups than it opens, and all are closed at the end. -/
structure Balanced (ls : List Lexeme) : Prop where
  opened : ∀ front, front <+: ls → closings front ≤ openings front
  closed : closings ls = openings ls

section Balanced

variable {ls ms : List Lexeme} {l : Lexeme}

instance (ls : List Lexeme) : Decidable (Balanced ls) :=
  decidable_of_iff ((∀ front ∈ ls.inits, closings front ≤ openings front) ∧
    closings ls = openings ls)
    ⟨fun h => ⟨fun front hf => h.1 front ((List.mem_inits front ls).mpr hf), h.2⟩,
      fun h => ⟨fun front hf => h.opened front ((List.mem_inits front ls).mp hf), h.closed⟩⟩

theorem Balanced.append (hl : Balanced ls) (hm : Balanced ms) : Balanced (ls ++ ms) := by
  refine ⟨fun front hf => ?_, ?_⟩
  · rcases List.prefix_or_prefix_of_prefix hf (List.prefix_append ls ms) with h | ⟨rest, rfl⟩
    · exact hl.opened front h
    · have hrest := hm.opened rest ((List.prefix_append_right_inj ls).mp hf)
      rw [openings_append, closings_append, hl.closed]
      omega
  · rw [openings_append, closings_append, hl.closed, hm.closed]

/-- Reading inside groups goes on to the parenthesis after what closes the groups open. -/
theorem insideGroup_append_closeParen {depth : Nat}
    (hopened : ∀ front, front <+: ls → closings front ≤ depth + openings front)
    (hclosed : closings ls = depth + openings ls) (t : List Char) (rest : List Lexeme) :
    insideGroup depth (ls ++ ⟨.closeParen, t⟩ :: rest) = some ls := by
  induction ls generalizing depth with
  | nil =>
    obtain rfl : 0 = depth := hclosed
    rfl
  | cons l ls ih =>
    rcases insideGroup_cons depth l with ⟨rfl, hk, -⟩ | ⟨m, hm, hpass⟩
    · have hone := hopened [l] (List.prefix_append [l] ls)
      simp [closings, openings, hk] at hone
    · rw [closings_cons, openings_cons] at hclosed
      rw [List.cons_append, hpass, ih (fun front hf => ?_) (by omega), Option.map_some]
      have hfront := hopened (l :: front) (List.cons_prefix_cons.mpr ⟨rfl, hf⟩)
      rw [closings_cons, openings_cons] at hfront
      omega

theorem insideGroup_balanced (h : Balanced ls) (t : List Char) (rest : List Lexeme) :
    insideGroup 0 (ls ++ ⟨.closeParen, t⟩ :: rest) = some ls :=
  insideGroup_append_closeParen (by simpa using h.opened) (by simpa using h.closed) t rest

end Balanced

/-! ## Three clauses -/

/-- The text has balanced parentheses and closed literals, and no semicolon outside literals. -/
structure IsClause (t : List Char) : Prop where
  balanced : Balanced (lexemes t)
  terminated : ∀ l ∈ lexemes t, l.Terminated
  undivided : ⟨.symbol, [';']⟩ ∉ lexemes t

section Clauses

variable {header a b c : List Char}

/-- A semicolon of a clause stands in a literal. -/
theorem IsClause.semicolon_mem_iff (h : IsClause a) :
    ';' ∈ a ↔ ∃ l ∈ lexemes a, l.IsLiteral ∧ ';' ∈ l.text := by
  constructor
  · intro hmem
    obtain ⟨before, after, htext⟩ := List.append_of_mem hmem
    rcases isSymbolAt_or_inLiteral (by decide) (by decide) htext with
      ⟨front, back, hlex, -⟩ | ⟨front, l, back, x, y, hlex, hliteral, hl, -⟩
    · exact absurd (by simp [hlex]) h.undivided
    · exact ⟨l, by simp [hlex], hliteral, by simp [hl]⟩
  · rintro ⟨l, hl, -, hmem⟩
    rw [← flatMap_text_lexemes a]
    exact List.mem_flatMap_of_mem hl hmem

theorem lexemes_append_semicolon (h : IsClause a) (rest : List Char) :
    lexemes (a ++ ';' :: rest) = lexemes a ++ [⟨.symbol, [';']⟩] ++ lexemes rest := by
  rw [lexemes_append_of_terminated (by decide) h.terminated, lexemes_symbol (by decide) (by decide)
    (by decide), List.append_assoc, List.singleton_append]

/-- The group of a header is its clauses. -/
theorem parenthesized_clauses (hheader : '(' ∉ header) (ha : IsClause a) (hb : IsClause b)
    (hc : IsClause c) (after : List Char) :
    parenthesized (header ++ '(' :: (a ++ ';' :: (b ++ ';' :: (c ++ ')' :: after)))) =
      some (a ++ ';' :: (b ++ ';' :: c)) := by
  have hsemicolon : Balanced [⟨.symbol, [';']⟩] := by decide
  have hbalanced := ((ha.balanced.append hsemicolon).append hb.balanced).append hsemicolon
    |>.append hc.balanced
  have hlex : lexemes (a ++ ';' :: (b ++ ';' :: (c ++ ')' :: after))) =
      (lexemes a ++ [⟨.symbol, [';']⟩] ++ lexemes b ++ [⟨.symbol, [';']⟩] ++ lexemes c) ++
        ⟨.closeParen, [')']⟩ :: lexemes after := by
    rw [lexemes_append_semicolon ha, lexemes_append_semicolon hb,
      lexemes_append_of_terminated (by decide) hc.terminated, lexemes_closeParen]
    simp only [List.append_assoc]
  rw [parenthesized_append_openParen hheader, hlex, insideGroup_balanced hbalanced]
  simp [flatMap_text_lexemes]

/-! ## The second piece -/

/-- What is shown of a clause. -/
def condition? (clause : List Char) : Option (List Char) :=
  if trim clause = [] then none else some (trim clause)

theorem condition?_inj {s t : List Char} : condition? s = condition? t ↔ trim s = trim t := by
  unfold condition?
  constructor
  · intro h
    split at h <;> split at h <;> simp_all
  · intro h
    rw [h]

/-- The second piece begins in the first clause if that has a semicolon. Otherwise it is the second
clause, or what stands in it before its first semicolon. -/
theorem getElem?_one_splitOn (a b c : List Char) :
    ∃ piece, ((a ++ ';' :: (b ++ ';' :: c)).splitOn ';')[1]? = some piece ∧ ';' ∉ piece ∧
      (∀ clause, (a.splitOn ';')[1]? = some clause → piece = clause) ∧
      ((a.splitOn ';')[1]? = none → ';' ∉ b → piece = b) := by
  rw [List.splitOn_append_cons_self, List.splitOn_append_cons_self]
  obtain ⟨first, rest, hfirst⟩ := List.exists_cons_of_ne_nil (List.splitOn_ne_nil ';' a)
  cases rest with
  | nil =>
    obtain ⟨second, others, hsecond⟩ := List.exists_cons_of_ne_nil (List.splitOn_ne_nil ';' b)
    refine ⟨second, by simp [hfirst, hsecond], ?_, by simp [hfirst], fun _ hb => ?_⟩
    · exact Text.not_mem_of_mem_splitOn (hsecond ▸ List.mem_cons_self)
    · rw [List.splitOn_eq_singleton hb] at hsecond
      exact (List.cons.inj hsecond).1.symm
  | cons clause rest =>
    refine ⟨clause, by simp [hfirst], ?_, by simp [hfirst], by simp [hfirst]⟩
    exact Text.not_mem_of_mem_splitOn (hfirst ▸ List.mem_cons_of_mem _ List.mem_cons_self)

/-- **The condition of a header.** A header with three clauses shows the second of them, trimmed, or
nothing if it is blank, if and only if no literal of this clause has a semicolon and, in case that
the first clause has one, what stands after it, up to the next, is the second clause but for white
space. -/
theorem forCondition?_clause_iff (hheader : '(' ∉ header) (ha : IsClause a) (hb : IsClause b)
    (hc : IsClause c) (after : List Char) :
    forCondition? (header ++ '(' :: (a ++ ';' :: (b ++ ';' :: (c ++ ')' :: after)))) =
        condition? b ↔
      (∀ l ∈ lexemes b, l.IsLiteral → ';' ∉ l.text) ∧
        ∀ clause, (a.splitOn ';')[1]? = some clause → trim clause = trim b := by
  obtain ⟨piece, hpiece, hnot, hfirst, hsecond⟩ := getElem?_one_splitOn a b c
  have hshown : forCondition? (header ++ '(' :: (a ++ ';' :: (b ++ ';' :: (c ++ ')' :: after)))) =
      condition? piece := by
    rw [forCondition?, parenthesized_clauses hheader ha hb hc]
    simp [hpiece, condition?, List.isEmpty_iff]
  have hliteral : (∀ l ∈ lexemes b, l.IsLiteral → ';' ∉ l.text) ↔ ';' ∉ b := by
    rw [hb.semicolon_mem_iff]
    simp only [not_exists, not_and]
  rw [hshown, condition?_inj, hliteral]
  constructor
  · intro heq
    refine ⟨fun hmem => hnot ?_, fun clause hclause => hfirst clause hclause ▸ heq⟩
    exact Text.mem_of_mem_trim (heq ▸ Text.mem_trim_of_not_blank (by decide) hmem)
  · rintro ⟨hb, hclause⟩
    cases h : (a.splitOn ';')[1]? with
    | none => rw [hsecond h hb]
    | some clause => rw [hfirst clause h, hclause clause h]

/-- A text with one literal in single quotes at most is a clause if that can be read and nothing else
is in the way. -/
theorem isClause_of_literal {literal : List Char} {parts : List Literal.Part}
    (hreads : Literal.Reads '\'' literal parts true)
    (hliteral : ∀ l ∈ lexemes a, l.kind.quote? = none ∨ l = ⟨.character, literal⟩)
    (hbalanced : Balanced (lexemes a)) (hundivided : ⟨.symbol, [';']⟩ ∉ lexemes a) :
    IsClause a := by
  refine ⟨hbalanced, fun l hl q hq => ?_, hundivided⟩
  rcases hliteral l hl with hnone | rfl
  · cases hnone.symm.trans hq
  · obtain rfl : '\'' = q := Option.some.inj hq
    exact ⟨parts, hreads⟩

end Clauses

/-- A parenthesis in a literal closes nothing, and a semicolon in the last clause does no harm. -/
theorem forCondition?_parenthesis_literal :
    let a := "i = 0".toList
    let b := " s[i] != ')'".toList
    let c := " p(';')".toList
    '(' ∉ "for ".toList ∧ IsClause a ∧ IsClause b ∧ IsClause c ∧
    (∀ l ∈ lexemes b, l.IsLiteral → ';' ∉ l.text) ∧
    (∀ clause, (a.splitOn ';')[1]? = some clause → trim clause = trim b) ∧
    forCondition? ("for ".toList ++ '(' :: (a ++ ';' :: (b ++ ';' :: (c ++ ')' :: [])))) =
      some "s[i] != ')'".toList := by
  intro a b c
  have hheader : '(' ∉ "for ".toList := by decide
  have hparenthesis : Literal.Reads '\'' "')'".toList [.plain ')'] true := by decide
  have hsemicolon : Literal.Reads '\'' "';'".toList [.plain ';'] true := by decide
  have ha : IsClause a := isClause_of_literal hsemicolon (by decide +kernel) (by decide +kernel)
    (by decide +kernel)
  have hb : IsClause b := isClause_of_literal hparenthesis (by decide +kernel) (by decide +kernel)
    (by decide +kernel)
  have hc : IsClause c := isClause_of_literal hsemicolon (by decide +kernel) (by decide +kernel)
    (by decide +kernel)
  have hliterals : ∀ l ∈ lexemes b, l.IsLiteral → ';' ∉ l.text := by
    have hnone : ∀ l ∈ lexemes b, ';' ∉ l.text := by decide +kernel
    exact fun l hl _ => hnone l hl
  have hfirst : (a.splitOn ';')[1]? = none := by decide +kernel
  have hclause : ∀ clause, (a.splitOn ';')[1]? = some clause → trim clause = trim b := by
    simp [hfirst]
  have hcondition : condition? b = some "s[i] != ')'".toList := by decide +kernel
  refine ⟨hheader, ha, hb, hc, hliterals, hclause, ?_⟩
  rw [← hcondition]
  exact (forCondition?_clause_iff hheader ha hb hc []).mpr ⟨hliterals, hclause⟩

/-- A semicolon in a literal of the first clause is taken for the end of that clause. -/
theorem forCondition?_semicolon_literal :
    let a := "c = ';'".toList
    let b := " c < 5".toList
    let c := " c++".toList
    IsClause a ∧ IsClause b ∧ IsClause c ∧ condition? b = some "c < 5".toList ∧
    forCondition? ("for ".toList ++ '(' :: (a ++ ';' :: (b ++ ';' :: (c ++ ')' :: [])))) =
      some "'".toList := by
  intro a b c
  have hsemicolon : Literal.Reads '\'' "';'".toList [.plain ';'] true := by decide
  have hclause {t : List Char}
      (h : ∀ l ∈ lexemes t, l.kind.quote? = none ∨ l = ⟨.character, "';'".toList⟩) :=
    isClause_of_literal hsemicolon h
  refine ⟨hclause ?_ ?_ ?_, hclause ?_ ?_ ?_, hclause ?_ ?_ ?_, ?_, ?_⟩ <;> decide +kernel

end Flowchart.Statement
