import Flowchart.Proofs.Statement

/-!
# The first group in parentheses

`parenthesized_matching`: the first group of a text reaches to the parenthesis that ends the
shortest front part of the lexemes which closes as many groups as it opens or, if there is none, to
the last closing parenthesis after it. Either way the text of the group is a slice of the text, by
byte offsets.

* `slice?`: the text between two byte offsets.
* `Closes`: a front part that closes more groups than it opens, by a given number.
* `shortest_of_insideGroup`, `not_closes_of_insideGroup`: how far reading inside a group reaches.
-/

namespace Flowchart

namespace Text

/-! ## Slices -/

/-- The first `n` bytes of a text, unless they end inside a character or the text has fewer. -/
def takeBytes? (n : Nat) : List Char → Option (List Char)
  | [] => if n = 0 then some [] else none
  | c :: cs =>
    if n = 0 then some []
    else if n < c.utf8Size then none
    else (takeBytes? (n - c.utf8Size) cs).map (c :: ·)

/-- The text after its first `n` bytes, unless they end inside a character or the text has fewer. -/
def dropBytes? (n : Nat) : List Char → Option (List Char)
  | [] => if n = 0 then some [] else none
  | c :: cs =>
    if n = 0 then some (c :: cs)
    else if n < c.utf8Size then none
    else dropBytes? (n - c.utf8Size) cs

/-- The text between two byte offsets, unless one of them lies inside a character or outside the
text, or the second one before the first. -/
def slice? (start stop : Nat) (text : List Char) : Option (List Char) :=
  (takeBytes? stop text).bind (dropBytes? start)

theorem takeBytes?_append (a b : List Char) : takeBytes? (byteLength a) (a ++ b) = some a := by
  induction a with
  | nil => cases b <;> rfl
  | cons c a ih =>
    have hpos := c.utf8Size_pos
    rw [List.cons_append, takeBytes?, byteLength_cons, if_neg (by omega), if_neg (by omega),
      Nat.add_sub_cancel_left, ih]
    rfl

theorem dropBytes?_append (a b : List Char) : dropBytes? (byteLength a) (a ++ b) = some b := by
  induction a with
  | nil => cases b <;> rfl
  | cons c a ih =>
    have hpos := c.utf8Size_pos
    rw [List.cons_append, dropBytes?, byteLength_cons, if_neg (by omega), if_neg (by omega),
      Nat.add_sub_cancel_left, ih]

/-- What stands in a text is the slice between the offsets of its ends. -/
theorem slice?_append (a t b : List Char) :
    slice? (byteLength a) (byteLength (a ++ t)) (a ++ t ++ b) = some t := by
  rw [slice?, takeBytes?_append, Option.bind_some, dropBytes?_append]

end Text

namespace Statement

open Text (byteLength slice?)

/-! ## Parentheses of lexemes -/

theorem text_of_closeParen {cs : List Char} {l : Lexeme} (hl : l ∈ lexemes cs)
    (hk : l.kind = .closeParen) : l.text = [')'] := by
  obtain ⟨c, rfl⟩ := exists_text_eq_singleton hl (by rw [hk]; rfl) (by simp [hk])
  have hkind : Lexeme.kindAt c = .closeParen := hk
  rw [paren_of_kindAt.2.1 hkind]

theorem openings_append (ls ms : List Lexeme) : openings (ls ++ ms) = openings ls + openings ms :=
  List.countP_append

theorem closings_append (ls ms : List Lexeme) : closings (ls ++ ms) = closings ls + closings ms :=
  List.countP_append

theorem openings_cons (l : Lexeme) (ls : List Lexeme) :
    openings (l :: ls) = openings [l] + openings ls := openings_append [l] ls

theorem closings_cons (l : Lexeme) (ls : List Lexeme) :
    closings (l :: ls) = closings [l] + closings ls := closings_append [l] ls

/-- A front part of the lexemes that is not empty and closes `n` groups more than it opens. -/
structure Closes (n : Nat) (ls front : List Lexeme) : Prop where
  begins : front <+: ls
  ne_nil : front ≠ []
  counts : closings front = openings front + n

/-- No shorter list has the property. -/
def Shortest (P : List Lexeme → Prop) (front : List Lexeme) : Prop :=
  P front ∧ ∀ front', P front' → front.length ≤ front'.length

section Closes

variable {m n depth : Nat} {l : Lexeme} {ls front inside : List Lexeme}

/-- A front part with more groups to close after its first lexeme. -/
theorem closes_cons (h : n + openings [l] = m + 1 + closings [l]) :
    Closes n (l :: ls) front ↔ ∃ rest, front = l :: rest ∧ Closes (m + 1) ls rest := by
  constructor
  · rintro ⟨hbegins, hne, hcounts⟩
    obtain rfl | ⟨rest, rfl, hrest⟩ := List.prefix_cons_iff.mp hbegins
    · exact absurd rfl hne
    rw [openings_cons, closings_cons] at hcounts
    have hmore : closings rest = openings rest + (m + 1) := by omega
    refine ⟨rest, rfl, hrest, ?_, hmore⟩
    rintro rfl
    simp [closings] at hmore
  · rintro ⟨rest, rfl, hrest, -, hcounts⟩
    refine ⟨List.cons_prefix_cons.mpr ⟨rfl, hrest⟩, List.cons_ne_nil _ _, ?_⟩
    rw [openings_cons, closings_cons]
    omega

theorem shortest_cons (h : n + openings [l] = m + 1 + closings [l])
    (hs : Shortest (Closes (m + 1) ls) front) : Shortest (Closes n (l :: ls)) (l :: front) := by
  refine ⟨(closes_cons h).mpr ⟨front, rfl, hs.1⟩, fun front' hfront => ?_⟩
  obtain ⟨rest, rfl, hrest⟩ := (closes_cons h).mp hfront
  exact Nat.succ_le_succ (hs.2 rest hrest)

theorem not_closes_cons (h : n + openings [l] = m + 1 + closings [l])
    (hs : ∀ front, ¬ Closes (m + 1) ls front) (front : List Lexeme) :
    ¬ Closes n (l :: ls) front := by
  intro hfront
  obtain ⟨rest, -, hrest⟩ := (closes_cons h).mp hfront
  exact hs rest hrest

/-- Reading inside a group stops before the parenthesis that closes it and the groups around. -/
theorem shortest_of_insideGroup (h : insideGroup depth ls = some inside) :
    ∃ l, l.kind = .closeParen ∧ Shortest (Closes (depth + 1) ls) (inside ++ [l]) := by
  induction ls generalizing depth inside with
  | nil => cases h
  | cons l ls ih =>
    rcases insideGroup_cons depth l with ⟨rfl, hk, hstop⟩ | ⟨m, hm, hpass⟩
    · obtain rfl := Option.some.inj ((hstop ls).symm.trans h)
      refine ⟨l, hk, ⟨⟨ls, rfl⟩, List.cons_ne_nil _ _, ?_⟩, fun front hfront => ?_⟩
      · simp [closings, openings, hk]
      · exact List.length_pos_iff.mpr hfront.ne_nil
    · obtain ⟨rest, hrest, rfl⟩ := Option.map_eq_some_iff.mp ((hpass ls).symm.trans h)
      obtain ⟨l', hk, hs⟩ := ih hrest
      exact ⟨l', hk, shortest_cons hm hs⟩

/-- Reading inside a group finds no end only if no front part closes it. -/
theorem not_closes_of_insideGroup (h : insideGroup depth ls = none) (front : List Lexeme) :
    ¬ Closes (depth + 1) ls front := by
  induction ls generalizing depth front with
  | nil => exact fun hfront => hfront.ne_nil (List.prefix_nil.mp hfront.begins)
  | cons l ls ih =>
    rcases insideGroup_cons depth l with ⟨-, -, hstop⟩ | ⟨m, hm, hpass⟩
    · cases (hstop ls).symm.trans h
    · exact not_closes_cons hm (ih (Option.map_eq_none_iff.mp ((hpass ls).symm.trans h))) front

end Closes

/-! ## The two ways to find the end -/

section Cut

variable {before inside : List Char}

/-- The front parts that balance, past the first opening parenthesis. -/
theorem closes_lexemes_openParen {front : List Lexeme} :
    Closes 0 (lexemes ('(' :: inside)) front ↔
      ∃ rest, front = ⟨.openParen, ['(']⟩ :: rest ∧ Closes 1 (lexemes inside) rest := by
  rw [lexemes_openParen]
  exact closes_cons rfl

/-- A group that is closed ends before the parenthesis that closes it. -/
theorem parenthesized_of_closes (hb : '(' ∉ before)
    (h : ∃ front, Closes 0 (lexemes ('(' :: inside)) front) :
    ∃ group t after,
      Shortest (Closes 0 (lexemes ('(' :: inside))) (group ++ [⟨.closeParen, [')']⟩]) ∧
      group.flatMap Lexeme.text = '(' :: t ∧ inside = t ++ ')' :: after ∧
      parenthesized (before ++ '(' :: inside) = some t := by
  obtain ⟨front, hfront⟩ := h
  obtain ⟨rest, rfl, hrest⟩ := closes_lexemes_openParen.mp hfront
  cases hgroup : insideGroup 0 (lexemes inside) with
  | none => exact absurd hrest (not_closes_of_insideGroup hgroup rest)
  | some group =>
    obtain ⟨⟨kind, paren⟩, hk, hs⟩ := shortest_of_insideGroup hgroup
    obtain ⟨after, hafter⟩ := hs.1.begins
    obtain rfl : kind = .closeParen := hk
    have hmem : ⟨.closeParen, paren⟩ ∈ lexemes inside := by
      rw [← hafter]
      simp
    obtain rfl : paren = [')'] := text_of_closeParen hmem rfl
    have hinside := flatMap_text_lexemes inside
    rw [← hafter] at hinside
    refine ⟨⟨.openParen, ['(']⟩ :: group, group.flatMap Lexeme.text, after.flatMap Lexeme.text,
      ?_, rfl, by rw [← hinside]; simp, ?_⟩
    · rw [lexemes_openParen]
      exact shortest_cons rfl hs
    · rw [parenthesized_append_openParen hb, hgroup]
      rfl

/-- A group that is not closed reaches to the last closing parenthesis. -/
theorem parenthesized_of_not_closes (hb : '(' ∉ before)
    (h : ¬ ∃ front, Closes 0 (lexemes ('(' :: inside)) front) :
    parenthesized (before ++ '(' :: inside) = beforeLast? ')' inside := by
  cases hgroup : insideGroup 0 (lexemes inside) with
  | none =>
    rw [parenthesized_append_openParen hb, hgroup]
    rfl
  | some group =>
    obtain ⟨l, -, hs⟩ := shortest_of_insideGroup hgroup
    exact absurd ⟨_, closes_lexemes_openParen.mpr ⟨_, rfl, hs.1⟩⟩ h

/-- The text of a group is the slice between its parentheses. -/
theorem slice?_group (before t after : List Char) :
    slice? (byteLength before + 1) (byteLength (before ++ '(' :: t))
      (before ++ '(' :: (t ++ ')' :: after)) = some t := by
  have hslice := Text.slice?_append (before ++ ['(']) t (')' :: after)
  have hstart : byteLength (before ++ ['(']) = byteLength before + 1 := Text.byteLength_append ..
  simpa [hstart, -Text.byteLength_append] using hslice

end Cut

/-- **Matching parentheses.** A text without an opening parenthesis has no group. Otherwise, if some
front part of the lexemes from the first opening parenthesis on closes as many groups as it opens,
the group reaches to the parenthesis that ends the shortest such part. If there is none, it reaches
to the last closing parenthesis of the text, if that comes after the opening one. The text of a
group is the slice between its two parentheses. -/
theorem parenthesized_matching (text : List Char) :
    ('(' ∉ text → parenthesized text = none) ∧
    ∀ before inside, text = before ++ '(' :: inside → '(' ∉ before →
      ((∃ front, Closes 0 (lexemes ('(' :: inside)) front) →
        ∃ group t, Shortest (Closes 0 (lexemes ('(' :: inside))) (group ++ [⟨.closeParen, [')']⟩]) ∧
          slice? (byteLength before + 1)
            (byteLength before + byteLength (group.flatMap Lexeme.text)) text = some t ∧
          parenthesized text = some t) ∧
      ((¬ ∃ front, Closes 0 (lexemes ('(' :: inside)) front) →
        (∀ front after, text = front ++ ')' :: after → ')' ∉ after →
          if byteLength before < byteLength front then
            ∃ t, slice? (byteLength before + 1) (byteLength front) text = some t ∧
              parenthesized text = some t
          else parenthesized text = none) ∧
        (')' ∉ text → parenthesized text = none)) := by
  refine ⟨parenthesized_of_not_mem, ?_⟩
  rintro before inside rfl hb
  refine ⟨fun h => ?_, fun h => ⟨?_, fun hclose => ?_⟩⟩
  · obtain ⟨group, t, after, hs, hgroup, rfl, hresult⟩ := parenthesized_of_closes hb h
    refine ⟨group, t, hs, ?_, hresult⟩
    rw [hgroup, ← Text.byteLength_append]
    exact slice?_group before t after
  · intro front after htext hafter
    rw [parenthesized_of_not_closes hb h]
    rcases List.append_eq_append_iff.mp htext with ⟨mid, rfl, hmid⟩ | ⟨mid, rfl, hmid⟩
    · -- The last closing parenthesis comes after the opening one.
      cases mid with
      | nil => simp at hmid
      | cons c t =>
        obtain ⟨rfl, rfl⟩ := List.cons.inj hmid
        have hlt : byteLength before < byteLength (before ++ '(' :: t) := by
          have hpos := '('.utf8Size_pos
          rw [Text.byteLength_append, Text.byteLength_cons]
          omega
        rw [if_pos hlt]
        exact ⟨t, slice?_group before t after, beforeLast?_append_cons hafter t⟩
    · -- It comes before the opening one, so there is none in the group.
      cases mid with
      | nil => simp at hmid
      | cons c t =>
        obtain ⟨rfl, rfl⟩ := List.cons.inj hmid
        rw [if_neg (by simp)]
        exact beforeLast?_of_not_mem fun hmem => hafter (by simp [hmem])
  · rw [parenthesized_of_not_closes hb h]
    exact beforeLast?_of_not_mem fun hmem => hclose (by simp [hmem])

/-- A parenthesis in a literal closes nothing; a missing one leaves the last one. -/
theorem parenthesized_literal_and_unclosed :
    let literal := "s == \")\") x);".toList
    let unclosed := "(a > b)".toList
    (∃ front, Closes 0 (lexemes ('(' :: literal)) front) ∧
    (∃ group t,
      Shortest (Closes 0 (lexemes ('(' :: literal))) (group ++ [⟨.closeParen, [')']⟩]) ∧
      slice? 4 (3 + byteLength (group.flatMap Lexeme.text)) ("if ".toList ++ '(' :: literal) =
        some t ∧
      parenthesized ("if ".toList ++ '(' :: literal) = some t) ∧
    (¬ ∃ front, Closes 0 (lexemes ('(' :: unclosed)) front) ∧
    ∃ t, slice? 7 13 ("while ".toList ++ '(' :: unclosed) = some t ∧
      parenthesized ("while ".toList ++ '(' :: unclosed) = some t := by
  intro literal unclosed
  have hcloses : ∃ front, Closes 0 (lexemes ('(' :: literal)) front :=
    ⟨lexemes "(s == \")\")".toList, by decide +kernel, by decide +kernel, by decide +kernel⟩
  have hnot : ¬ ∃ front, Closes 0 (lexemes ('(' :: unclosed)) front := by
    have hgroup : insideGroup 0 (lexemes unclosed) = none := by decide +kernel
    rintro ⟨front, hfront⟩
    obtain ⟨rest, -, hrest⟩ := closes_lexemes_openParen.mp hfront
    exact not_closes_of_insideGroup hgroup rest hrest
  have hliteral := (parenthesized_matching ("if ".toList ++ '(' :: literal)).2 "if ".toList literal
    rfl (by decide)
  have hunclosed := (parenthesized_matching ("while ".toList ++ '(' :: unclosed)).2
    "while ".toList unclosed rfl (by decide)
  refine ⟨hcloses, hliteral.1 hcloses, hnot, ?_⟩
  exact (hunclosed.2 hnot).1 "while ((a > b".toList [] (by decide +kernel) (by decide)

end Statement

end Flowchart
