import Flowchart.Proofs.Repair.Reported

/-!
# The condition that a repaired line has

A line on which an assignment in a condition is found has its first equals sign doubled, wherever
that stands. `first_equals_repaired_iff` says when this repairs a condition (`RepairsCondition`):
the first group in parentheses assigns, and no equals sign stands before the group.

* `group?`: the group of a header, with the text before and after it. `text_of_group?`: together
  they are the line.
-/

namespace Flowchart

/-- The lexemes inside a group are those at the front. -/
theorem insideGroup_prefix {depth : Nat} {ls inside : List Lexeme}
    (h : Statement.insideGroup depth ls = some inside) : inside <+: ls := by
  induction ls generalizing depth inside with
  | nil => cases h
  | cons l ls ih =>
    rcases insideGroup_cons depth l with ⟨-, -, hstop⟩ | ⟨m, -, hpass⟩
    · obtain rfl := Option.some.inj ((hstop ls).symm.trans h)
      exact List.nil_prefix
    · obtain ⟨rest, hrest, rfl⟩ := Option.map_eq_some_iff.mp ((hpass ls).symm.trans h)
      exact List.cons_prefix_cons.mpr ⟨rfl, ih hrest⟩

/-- A text is cut at the first `c` in one way. -/
theorem append_cons_inj {c : Char} {a a' b b' : List Char} (ha : c ∉ a) (ha' : c ∉ a')
    (h : a ++ c :: b = a' ++ c :: b') : a = a' ∧ b = b' := by
  rcases List.append_eq_append_iff.mp h with ⟨mid, rfl, hb⟩ | ⟨mid, rfl, hb⟩
  all_goals
    cases mid with
    | nil => simpa [eq_comm] using hb
    | cons d mid =>
      obtain ⟨rfl, -⟩ := List.cons.inj hb
      simp at ha ha'

namespace Repair

/-! ## The group of a header -/

/-- A line cut at its first group in parentheses. -/
structure Group where
  before : List Char
  /-- What stands between the parentheses. -/
  inside : List Lexeme
  /-- The closing parenthesis and what comes after it. -/
  after : List Char
deriving DecidableEq, Repr

/-- The group with another text inside. -/
def Group.withText (g : Group) (text : List Char) : List Char := g.before ++ '(' :: text ++ g.after

/-- The first group of a line, from its first opening parenthesis to the one that closes it or, if
none does, to the end of the line. -/
def group? (line : List Char) : Option Group :=
  match line.dropWhile (· != '(') with
  | [] => none
  | _ :: rest =>
    let inside := (Statement.insideGroup 0 (lexemes rest)).getD (lexemes rest)
    some ⟨line.takeWhile (· != '('), inside,
      ((lexemes rest).drop inside.length).flatMap Lexeme.text⟩

/-- An equals sign outside of literals. -/
def equalsSign : Lexeme := ⟨.symbol, ['=']⟩

/-- The group of the line holds an equals sign, and no other one stands before the group. -/
def AssignsInGroup (line : List Char) : Prop :=
  ∃ g, group? line = some g ∧ equalsSign ∈ g.inside ∧ '=' ∉ g.before

/-- The group of the line holds an equals sign, and `line'` is the line with another text in the
group. -/
def RepairsCondition (line line' : List Char) : Prop :=
  ∃ g, group? line = some g ∧ equalsSign ∈ g.inside ∧ ∃ text, line' = g.withText text

variable {line : List Char} {g : Group}

/-- The parts put together are the line; there is no opening parenthesis before the group. -/
theorem text_of_group? (h : group? line = some g) :
    g.withText (g.inside.flatMap Lexeme.text) = line ∧ '(' ∉ g.before := by
  unfold group? at h
  split at h
  · cases h
  next c rest hdrop =>
    obtain rfl := Option.some.inj h
    have hparen : c = '(' := by
      have hhead := List.head?_dropWhile_not (· != '(') line
      rw [hdrop] at hhead
      simpa using hhead
    have hinside : (Statement.insideGroup 0 (lexemes rest)).getD (lexemes rest) <+:
        lexemes rest := by
      cases hgroup : Statement.insideGroup 0 (lexemes rest) with
      | none => exact List.prefix_rfl
      | some inside => exact insideGroup_prefix hgroup
    constructor
    · have hrest := flatMap_text_lexemes rest
      rw [← List.prefix_iff_eq_append.mp hinside, List.flatMap_append] at hrest
      have hline := List.takeWhile_append_dropWhile (p := (· != '(')) (l := line)
      rw [hdrop, hparen] at hline
      rw [Group.withText, List.append_assoc, List.cons_append, hrest, hline]
    · intro hmem
      simpa using List.mem_takeWhile_imp hmem

/-! ## The repair of a header -/

variable {x y : List Char}

/-- Doubling an equals sign before the group leaves no place for the group. -/
theorem not_withText_of_mem (h : group? (x ++ '=' :: y) = some g) (hx : '=' ∉ x)
    (hmem : '=' ∈ g.before) (text : List Char) : x ++ '=' :: '=' :: y ≠ g.withText text := by
  obtain ⟨hline, hparen⟩ := text_of_group? h
  obtain ⟨x', w, hbefore, hx'⟩ := List.eq_append_cons_of_mem hmem
  -- The equals sign before the group is the first one of the line.
  have hsplit : x ++ '=' :: y = x' ++ '=' :: (w ++ '(' :: (g.inside.flatMap Lexeme.text) ++
      g.after) := by
    rw [← hline, Group.withText, hbefore]
    simp
  obtain ⟨rfl, hy⟩ := append_cons_inj hx hx' hsplit
  rw [hbefore] at hparen
  have hw : '(' ∉ w := fun hm => hparen (by simp [hm])
  intro hdouble
  rw [Group.withText, hbefore, hy] at hdouble
  -- Now the parenthesis would stand at two places.
  have hcut : ('=' :: w) ++ '(' :: (g.inside.flatMap Lexeme.text ++ g.after) =
      w ++ '(' :: (text ++ g.after) := by simpa using hdouble
  obtain ⟨hlength, -⟩ := append_cons_inj (by simpa using hw) hw hcut
  exact absurd (congrArg List.length hlength) (by simp)

/-- An equals sign in the group that is the first one of the line is doubled there. -/
theorem exists_withText (h : group? (x ++ '=' :: y) = some g) (hx : '=' ∉ x)
    (hinside : equalsSign ∈ g.inside) (hbefore : '=' ∉ g.before) :
    ∃ text, x ++ '=' :: '=' :: y = g.withText text := by
  obtain ⟨hline, -⟩ := text_of_group? h
  have hmem : '=' ∈ g.inside.flatMap Lexeme.text :=
    List.mem_flatMap.mpr ⟨equalsSign, hinside, List.mem_singleton_self _⟩
  obtain ⟨u, w, htext, hu⟩ := List.eq_append_cons_of_mem hmem
  have hfront : '=' ∉ g.before ++ '(' :: u := by simp [hbefore, hu]
  have hsplit : x ++ '=' :: y = (g.before ++ '(' :: u) ++ '=' :: (w ++ g.after) := by
    rw [← hline, Group.withText, htext]
    simp
  obtain ⟨rfl, rfl⟩ := append_cons_inj hx hfront hsplit
  exact ⟨u ++ '=' :: '=' :: w, by simp [Group.withText]⟩

theorem repairsCondition_double_iff (hx : '=' ∉ x) :
    RepairsCondition (x ++ '=' :: y) (x ++ '=' :: '=' :: y) ↔ AssignsInGroup (x ++ '=' :: y) := by
  constructor
  · rintro ⟨g, hg, hinside, text, htext⟩
    exact ⟨g, hg, hinside, fun hmem => not_withText_of_mem hg hx hmem text htext⟩
  · rintro ⟨g, hg, hinside, hbefore⟩
    exact ⟨g, hg, hinside, exists_withText hg hx hinside hbefore⟩

/-- **Conditions.** A line on which an assignment in a condition is found has its first equals sign
doubled. The repair is one of the condition if and only if the condition is what assigns: the first
group in parentheses holds an equals sign, and none stands before the group. -/
theorem first_equals_repaired_iff {source line : List Char} {before after : List (List Char)}
    (hline : (sourceLines source).1 = before ++ line :: after)
    (hfound : ReportedOn source .assignmentInCondition before line) :
    ∃ x y, line = x ++ '=' :: y ∧ '=' ∉ x ∧
      (Text.lines (analyze source).fixed)[before.length]? = some (x ++ '=' :: '=' :: y) ∧
      (RepairsCondition line (x ++ '=' :: '=' :: y) ↔ AssignsInGroup line) := by
  have hlacks := (reportedOn_assignmentInCondition_iff hline).mp hfound
  have hequals : '=' ∈ line := by
    simp only [lacksComparison, assignsInCondition, Bool.and_eq_true,
      List.contains_iff_mem] at hlacks
    exact Text.mem_of_mem_trim hlacks.2.1.2
  obtain ⟨x, y, rfl, hx⟩ := List.eq_append_cons_of_mem hequals
  refine ⟨x, y, rfl, hx, ?_, repairsCondition_double_iff hx⟩
  rw [getElem?_lines_fixed hline, repairedLine_of_lacksComparison hlacks, doubleEquals,
    Text.replaceFirst_append hx, List.append_assoc]
  rfl

/-- The condition of the second line assigns, and so does its body. -/
theorem first_equals_repaired_nested :
    let source := "x = 1;\nif (f(x) && (y = x)) x = 3;\n".toList
    let line := "if (f(x) && (y = x)) x = 3;".toList
    (sourceLines source).1 = ["x = 1;".toList] ++ line :: [] ∧
    ReportedOn source .assignmentInCondition ["x = 1;".toList] line ∧
    AssignsInGroup line ∧
    ∃ x y, line = x ++ '=' :: y ∧ '=' ∉ x ∧
      (Text.lines (analyze source).fixed)[1]? = some (x ++ '=' :: '=' :: y) ∧
      (RepairsCondition line (x ++ '=' :: '=' :: y) ↔ AssignsInGroup line) := by
  intro source line
  have hline : (sourceLines source).1 = ["x = 1;".toList] ++ line :: [] := by decide +kernel
  have hfound : ReportedOn source .assignmentInCondition ["x = 1;".toList] line :=
    (reportedOn_assignmentInCondition_iff hline).mpr (by decide +kernel)
  have hgroup : group? line = some ⟨"if ".toList, lexemes "f(x) && (y = x)".toList,
      ") x = 3;".toList⟩ := by
    decide +kernel
  exact ⟨hline, hfound, ⟨_, hgroup, by decide +kernel, by decide⟩,
    first_equals_repaired_iff hline hfound⟩

/-- The body assigns and the condition does not: the body is what is repaired. -/
theorem not_repairsCondition_body :
    let source := "if (x) y = 2;".toList
    (sourceLines source).1 = [source] ∧ ReportedOn source .assignmentInCondition [] source ∧
    (Text.lines (analyze source).fixed)[0]? = some "if (x) y == 2;".toList ∧
    ¬ RepairsCondition source "if (x) y == 2;".toList ∧
    ∀ g, group? source = some g → equalsSign ∉ g.inside := by
  intro source
  have hline : (sourceLines source).1 = [] ++ source :: [] := by decide +kernel
  have hgroup : group? source = some ⟨"if ".toList, lexemes ['x'], ") y = 2;".toList⟩ := by
    decide +kernel
  have hinside : ∀ g, group? source = some g → equalsSign ∉ g.inside := by
    intro g hg
    obtain rfl := Option.some.inj (hgroup.symm.trans hg)
    decide +kernel
  refine ⟨hline, (reportedOn_assignmentInCondition_iff hline).mpr (by decide +kernel),
    by decide +kernel, ?_, hinside⟩
  rintro ⟨g, hg, hmem, -⟩
  exact hinside g hg hmem

end Repair

end Flowchart
