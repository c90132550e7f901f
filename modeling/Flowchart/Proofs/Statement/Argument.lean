import Flowchart.Proofs.Statement

/-!
# The argument of an input call

`inputTarget?_argument_iff`: an input call is taken to fill the identifier after the first comma that
one follows. This is the first argument of the call if that comma does not stand in a literal, and in
no other case.

* `Names`: an identifier at the beginning of a text, up to blanks and one `&`
  (`argument?_eq_some_iff`).
* `AfterComma`, `FirstNamed`: an identifier after a comma, and after the first comma
  (`inputTarget?_eq_some_iff`).
* `IsArgument`: the same among the lexemes of the text, where commas in literals do not count
  (`isArgument_iff`).
-/

namespace Flowchart.Statement

/-! ## Identifiers after a gap -/

/-- White space of a line or a line break. -/
def isGapChar (c : Char) : Bool := c == ' ' || c == '\t' || c == '\r' || c == '\n'

/-- White space, and at most one `&` after it. -/
def IsGap (t : List Char) : Prop :=
  ∃ blanks mark, t = blanks ++ mark ∧ (∀ c ∈ blanks, isGapChar c = true) ∧ (mark = [] ∨ mark = ['&'])

/-- The text begins with the identifier `w`, after a gap. -/
def Names (w t : List Char) : Prop :=
  ∃ gap rest, t = gap ++ (w ++ rest) ∧ IsGap gap ∧ w ≠ [] ∧ (∀ c ∈ w, isWordChar c = true) ∧
    ∀ c ∈ rest.head?, isWordChar c = false

section Names

variable {w t : List Char}

/-- The text after the first gap. -/
def afterGap (t : List Char) : List Char :=
  let t := t.dropWhile isGapChar
  if t.head? = some '&' then t.tail else t

theorem argument?_eq (t : List Char) : argument? t =
    if (afterGap t).takeWhile isWordChar = [] then none
    else some ((afterGap t).takeWhile isWordChar) := by
  simp only [argument?, List.isEmpty_iff]
  rfl

/-- A gap comes off the front. -/
theorem exists_gap (t : List Char) : ∃ gap, IsGap gap ∧ t = gap ++ afterGap t := by
  have hblanks : ∀ c ∈ t.takeWhile isGapChar, isGapChar c = true := fun c => List.mem_takeWhile_imp
  have ht : t.takeWhile isGapChar ++ t.dropWhile isGapChar = t := List.takeWhile_append_dropWhile
  unfold afterGap
  by_cases h : (t.dropWhile isGapChar).head? = some '&'
  · obtain ⟨r, hr⟩ := List.head?_eq_some_iff.mp h
    refine ⟨t.takeWhile isGapChar ++ ['&'], ⟨_, ['&'], rfl, hblanks, .inr rfl⟩, ?_⟩
    rw [hr] at ht ⊢
    simpa using ht.symm
  · refine ⟨t.takeWhile isGapChar, ⟨_, [], by simp, hblanks, .inl rfl⟩, ?_⟩
    simp only [h, ↓reduceIte]
    exact ht.symm

theorem not_gap_of_isWordChar {c : Char} (hc : isWordChar c = true) :
    isGapChar c = false ∧ c ≠ '&' := by
  refine ⟨Bool.eq_false_iff.mpr fun hgap => ?_, ?_⟩
  · simp only [isGapChar, Bool.or_eq_true, beq_iff_eq] at hgap
    rcases hgap with ((rfl | rfl) | rfl) | rfl <;> exact absurd hc (by decide)
  · rintro rfl
    exact absurd hc (by decide)

/-- The whole gap comes off. -/
theorem afterGap_append {gap : List Char} (hgap : IsGap gap)
    (ht : ∀ c ∈ t.head?, isWordChar c = true) : afterGap (gap ++ t) = t := by
  obtain ⟨blanks, mark, rfl, hblanks, hmark⟩ := hgap
  have hword : ∀ c ∈ t.head?, isGapChar c = false ∧ c ≠ '&' := fun c hc =>
    not_gap_of_isWordChar (ht c hc)
  have hdrop : ((blanks ++ mark) ++ t).dropWhile isGapChar = mark ++ t := by
    rw [List.append_assoc, List.dropWhile_append_of_pos hblanks]
    rcases hmark with rfl | rfl
    · cases t with
      | nil => rfl
      | cons c t => exact List.dropWhile_cons_of_neg (by simp [(hword c rfl).1])
    · exact List.dropWhile_cons_of_neg (by decide)
  unfold afterGap
  rw [hdrop]
  rcases hmark with rfl | rfl
  · cases t with
    | nil => rfl
    | cons c t => simp [(hword c rfl).2]
  · simp

theorem argument?_eq_some_iff : argument? t = some w ↔ Names w t := by
  rw [argument?_eq]
  constructor
  · intro h
    split at h
    · cases h
    next hne =>
      obtain rfl := Option.some.inj h
      obtain ⟨gap, hgap, ht⟩ := exists_gap t
      refine ⟨gap, (afterGap t).dropWhile isWordChar, ?_, hgap, hne,
        fun c => List.mem_takeWhile_imp, Text.of_mem_head?_dropWhile⟩
      rw [List.takeWhile_append_dropWhile]
      exact ht
  · rintro ⟨gap, rest, rfl, hgap, hne, hw, hrest⟩
    have hhead : ∀ c ∈ (w ++ rest).head?, isWordChar c = true := by
      intro c hc
      rw [List.head?_append_of_ne_nil _ hne] at hc
      exact hw c (List.mem_of_mem_head? hc)
    rw [afterGap_append hgap hhead, (takeWhile_word hw hrest).1, if_neg hne]

theorem Names.unique {v : List Char} (hw : Names w t) (hv : Names v t) : w = v :=
  Option.some.inj ((argument?_eq_some_iff.mpr hw).symm.trans (argument?_eq_some_iff.mpr hv))

end Names

/-! ## Identifiers after a comma -/

/-- The identifier `w` follows the comma after `before`. -/
def AfterComma (text before w : List Char) : Prop :=
  ∃ after, text = before ++ ',' :: after ∧ Names w after

/-- The first comma that an identifier follows is the one after `before`. -/
def FirstNamed (text before w : List Char) : Prop :=
  AfterComma text before w ∧ ∀ before' w', AfterComma text before' w' → before.length ≤ before'.length

section AfterComma

variable {text before w : List Char} {c : Char} {cs : List Char}

theorem afterComma_cons : AfterComma (c :: cs) before w ↔
    (before = [] ∧ c = ',' ∧ Names w cs) ∨ ∃ front, before = c :: front ∧ AfterComma cs front w := by
  constructor
  · rintro ⟨after, htext, hnames⟩
    cases before with
    | nil =>
      obtain ⟨rfl, rfl⟩ := List.cons.inj htext
      exact .inl ⟨rfl, rfl, hnames⟩
    | cons d front =>
      obtain ⟨rfl, rfl⟩ := List.cons.inj htext
      exact .inr ⟨front, rfl, after, rfl, hnames⟩
  · rintro (⟨rfl, rfl, hnames⟩ | ⟨front, rfl, after, rfl, hnames⟩)
    · exact ⟨cs, rfl, hnames⟩
    · exact ⟨after, rfl, hnames⟩

theorem inputTarget?_cons (c : Char) (cs : List Char) :
    (c = ',' ∧ ∃ w, Names w cs ∧ inputTarget? (c :: cs) = some w) ∨
    (∀ w, c = ',' → ¬ Names w cs) ∧ inputTarget? (c :: cs) = inputTarget? cs := by
  by_cases hc : c = ','
  · rw [inputTarget?, if_pos hc]
    cases hw : argument? cs with
    | some w => exact .inl ⟨hc, w, argument?_eq_some_iff.mp hw, rfl⟩
    | none =>
      refine .inr ⟨fun w _ hnames => ?_, rfl⟩
      cases hw.symm.trans (argument?_eq_some_iff.mpr hnames)
  · rw [inputTarget?, if_neg hc]
    exact .inr ⟨fun w h => absurd h hc, rfl⟩

theorem exists_firstNamed (h : inputTarget? text = some w) : ∃ before, FirstNamed text before w := by
  induction text with
  | nil => cases h
  | cons c cs ih =>
    rcases inputTarget?_cons c cs with ⟨rfl, v, hnames, hv⟩ | ⟨hnot, hcs⟩
    · obtain rfl := Option.some.inj (hv.symm.trans h)
      exact ⟨[], afterComma_cons.mpr (.inl ⟨rfl, rfl, hnames⟩), fun _ _ _ => Nat.zero_le _⟩
    · obtain ⟨front, hfront, hfirst⟩ := ih (hcs.symm.trans h)
      refine ⟨c :: front, afterComma_cons.mpr (.inr ⟨front, rfl, hfront⟩), fun before' w' h' => ?_⟩
      rcases afterComma_cons.mp h' with ⟨-, hc, hnames⟩ | ⟨front', rfl, hfront'⟩
      · exact absurd hnames (hnot w' hc)
      · exact Nat.succ_le_succ (hfirst front' w' hfront')

/-- Nothing is read only where no comma is followed by an identifier. -/
theorem not_afterComma (h : inputTarget? text = none) : ¬ AfterComma text before w := by
  induction text generalizing before with
  | nil =>
    rintro ⟨after, htext, -⟩
    simp at htext
  | cons c cs ih =>
    rcases inputTarget?_cons c cs with ⟨-, v, -, hv⟩ | ⟨hnot, hcs⟩
    · cases hv.symm.trans h
    · intro h'
      rcases afterComma_cons.mp h' with ⟨-, hc, hnames⟩ | ⟨front, -, hfront⟩
      · exact hnot w hc hnames
      · exact ih (hcs.symm.trans h) hfront

theorem FirstNamed.unique {before' w' : List Char} (h : FirstNamed text before w)
    (h' : FirstNamed text before' w') : w = w' := by
  have hlength := Nat.le_antisymm (h.2 _ _ h'.1) (h'.2 _ _ h.1)
  obtain ⟨after, rfl, hnames⟩ := h.1
  obtain ⟨after', htext, hnames'⟩ := h'.1
  obtain ⟨rfl, hafter⟩ := List.append_inj htext hlength
  obtain rfl := (List.cons.inj hafter).2
  exact hnames.unique hnames'

/-- What is read is the identifier after the first comma that one follows. -/
theorem inputTarget?_eq_some_iff :
    inputTarget? text = some w ↔ ∃ before, FirstNamed text before w := by
  refine ⟨exists_firstNamed, fun ⟨before, hfirst⟩ => ?_⟩
  cases h : inputTarget? text with
  | none => exact absurd hfirst.1 (not_afterComma h)
  | some v =>
    obtain ⟨before', hfirst'⟩ := exists_firstNamed h
    rw [hfirst.unique hfirst']

end AfterComma

/-! ## Arguments -/

/-- The identifier `w` is a lexeme of the text, and so is the comma after `before`; between the two
there is a gap. -/
def IsArgument (text before w : List Char) : Prop :=
  ∃ front gap back, lexemes text = front ++ ⟨.symbol, [',']⟩ :: (gap ++ ⟨.word, w⟩ :: back) ∧
    front.flatMap Lexeme.text = before ∧ IsGap (gap.flatMap Lexeme.text)

/-- The first argument is the one after the comma after `before`. -/
def FirstArgument (text before w : List Char) : Prop :=
  IsArgument text before w ∧ ∀ before' w', IsArgument text before' w' → before.length ≤ before'.length

section IsArgument

variable {text before w gap : List Char}

theorem kindAt_of_mem_gap (hgap : IsGap gap) : ∀ c ∈ gap, Lexeme.kindAt c = .symbol := by
  obtain ⟨blanks, mark, rfl, hblanks, hmark⟩ := hgap
  intro c hc
  rcases List.mem_append.mp hc with hc | hc
  · have hc := hblanks c hc
    simp only [isGapChar, Bool.or_eq_true, beq_iff_eq] at hc
    rcases hc with ((rfl | rfl) | rfl) | rfl <;> decide
  · rcases hmark with rfl | rfl
    · cases hc
    · rw [List.mem_singleton.mp hc]
      decide

/-- Characters that are symbols are lexemes of their own. -/
theorem lexemes_symbols_append {t : List Char} (h : ∀ c ∈ t, Lexeme.kindAt c = .symbol)
    (rest : List Char) :
    lexemes (t ++ rest) = t.map (fun c => ⟨.symbol, [c]⟩) ++ lexemes rest := by
  induction t with
  | nil => rfl
  | cons c t ih =>
    obtain ⟨hc, ht⟩ := List.forall_mem_cons.mp h
    rw [List.cons_append, lexemes, Lexeme.first, hc]
    exact congrArg _ (ih ht)

/-- An argument is an identifier after a comma that is a lexeme of its own. -/
theorem isArgument_iff :
    IsArgument text before w ↔ IsSymbolAt ',' text before ∧ AfterComma text before w := by
  constructor
  · rintro ⟨front, gap, back, hlex, rfl, hgap⟩
    refine ⟨⟨front, _, hlex, rfl⟩, (gap ++ ⟨.word, w⟩ :: back).flatMap Lexeme.text, ?_, ?_⟩
    · conv => lhs; rw [← flatMap_text_lexemes text, hlex]
      simp
    · have hsplit : lexemes text = (front ++ ⟨.symbol, [',']⟩ :: gap) ++ ⟨.word, w⟩ :: back := by
        simp [hlex]
      have hword := lexemes_flatMap_text hsplit
      rw [List.flatMap_cons] at hword
      obtain ⟨hne, hw⟩ := isWordChar_of_mem_word (hword ▸ List.mem_cons_self) rfl
      exact ⟨gap.flatMap Lexeme.text, back.flatMap Lexeme.text, by simp, hgap, hne, hw,
        head?_of_lexemes_word hword⟩
  · rintro ⟨⟨front, back, hlex, rfl⟩, after, htext, gap, rest, rfl, hgap, hne, hw, hrest⟩
    have hback : back.flatMap Lexeme.text = gap ++ (w ++ rest) := by
      rw [← flatMap_text_lexemes text, hlex] at htext
      simpa using htext
    have hsplit : lexemes text = (front ++ [⟨.symbol, [',']⟩]) ++ back := by simp [hlex]
    have hlexback := lexemes_flatMap_text hsplit
    rw [hback, lexemes_symbols_append (kindAt_of_mem_gap hgap), lexemes_word hne hw hrest] at hlexback
    refine ⟨front, _, lexemes rest, by rw [hlex, ← hlexback], rfl, ?_⟩
    simpa [List.flatMap_map] using hgap

/-- **The target of an input call.** What is read is the identifier after the first comma that an
identifier follows; a gap may stand in between. If there is none, the text has no argument. It is the
first argument of the text if and only if its comma does not stand in a literal. -/
theorem inputTarget?_argument_iff (text : List Char) :
    (∀ w, inputTarget? text = some w ↔ ∃ before, FirstNamed text before w) ∧
    (inputTarget? text = none → ∀ before w, ¬ IsArgument text before w) ∧
    ∀ before w, FirstNamed text before w →
      (FirstArgument text before w ↔ ¬ InLiteral ',' text before) := by
  refine ⟨fun w => inputTarget?_eq_some_iff, fun h before w hw => ?_, fun before w hfirst => ?_⟩
  · exact not_afterComma h (isArgument_iff.mp hw).2
  · constructor
    · rintro ⟨hargument, -⟩ hliteral
      exact not_isSymbolAt_of_inLiteral hliteral (isArgument_iff.mp hargument).1
    · intro hnot
      obtain ⟨after, htext, -⟩ := hfirst.1
      have hsymbol := (isSymbolAt_or_inLiteral (by decide) (by decide) htext).resolve_right hnot
      exact ⟨isArgument_iff.mpr ⟨hsymbol, hfirst.1⟩, fun before' w' h' =>
        hfirst.2 before' w' (isArgument_iff.mp h').2⟩

end IsArgument

/-- A word of the format that stands after a comma is taken for the argument. -/
theorem inputTarget?_format :
    let text := "scanf(\"%d,count\", &x);".toList
    inputTarget? text = some "count".toList ∧ IsArgument text "scanf(\"%d,count\"".toList "x".toList ∧
      ∀ before, ¬ IsArgument text before "count".toList := by
  intro text
  refine ⟨by decide +kernel, ?_, fun before h => ?_⟩
  · have hgap : IsGap [' ', '&'] := ⟨[' '], ['&'], rfl, by simp [isGapChar], .inr rfl⟩
    have hlex : (lexemes " &".toList).flatMap Lexeme.text = [' ', '&'] := by decide +kernel
    exact ⟨lexemes "scanf(\"%d,count\"".toList, lexemes " &".toList, lexemes ");".toList,
      by decide +kernel, by decide +kernel, hlex ▸ hgap⟩
  · obtain ⟨front, gap, back, hlex, -⟩ := h
    have hmem : ⟨.word, "count".toList⟩ ∈ lexemes text := by simp [hlex]
    exact absurd hmem (by decide +kernel)

end Flowchart.Statement
