import Flowchart.Proofs.Lexeme
import Flowchart.Statement

/-!
# Keywords

`keyword_search`: a text contains a keyword if and only if one of its words outside of literals is
the keyword, and it begins with the keyword if and only if the keyword is its first word.

* `Outside`: a text that ends outside of every literal. `IsLiteralAt`: the literals of a text, read
  from the left. They are the literals among its lexemes (`isLiteralAt_iff`).
* `IsWordAt`: the words of a text, in literals or not. `mem_lexemes_word_iff`: those that meet no
  literal are the words among its lexemes.
-/

namespace Flowchart

open Literal (Reads Part)

/-! ## The literals of a text -/

/-- The text ends outside of every literal: it consists of characters that are no quotes and of
literals with a closing quote. -/
inductive Outside : List Char → Prop where
  | nil : Outside []
  | plain {c : Char} {t : List Char} (hc : c ≠ '"' ∧ c ≠ '\'') (ht : Outside t) : Outside (c :: t)
  | literal {q : Char} {l t : List Char} {parts : List Part} (hq : q = '"' ∨ q = '\'')
      (hl : Reads q l parts true) (ht : Outside t) : Outside (l ++ t)

/-- A literal of the text begins after `before`, and `l` is the whole of it. One without a closing
quote takes all of the text up to its end, or up to a lone backslash there. -/
structure IsLiteralAt (text before l : List Char) : Prop where
  outside : Outside before
  whole : ∃ q parts closed after, (q = '"' ∨ q = '\'') ∧ Reads q l parts closed ∧
    text = before ++ (l ++ after) ∧ (closed = false → after = [] ∨ after = ['\\'])

section Literals

variable {text before after l t : List Char} {c q : Char} {parts : List Part} {closed : Bool}
  {kind : LexemeKind} {front back ls : List Lexeme}

theorem kindAt_quote (hq : q = '"' ∨ q = '\'') : (Lexeme.kindAt q).quote? = some q := by
  rcases hq with rfl | rfl <;> rfl

namespace Outside

theorem append (ht : ∀ c ∈ t, c ≠ '"' ∧ c ≠ '\'') (h : Outside before) : Outside (t ++ before) := by
  induction t with
  | nil => exact h
  | cons c t ih =>
    obtain ⟨hc, ht⟩ := List.forall_mem_cons.mp ht
    exact .plain hc (ih ht)

/-- After its first word a text is outside of every literal as before. -/
theorem dropWhile_word (h : Outside t) : Outside (t.dropWhile isWordChar) := by
  induction h with
  | nil => exact .nil
  | @plain c t hc ht ih =>
    cases hw : isWordChar c with
    | true => rwa [List.dropWhile_cons_of_pos hw]
    | false =>
      rw [List.dropWhile_cons_of_neg (by simp [hw])]
      exact .plain hc ht
  | @literal q l t parts hq hl ht _ =>
    have hl' := hl.text
    have hw : isWordChar q = false := by rcases hq with rfl | rfl <;> decide
    rw [hl', List.cons_append, List.dropWhile_cons_of_neg (by simp [hw]), ← List.cons_append, ← hl']
    exact .literal hq hl ht

/-- The first lexeme of such a text is closed if it is a literal, and such a text is left. -/
theorem first {cs : List Char} (h : Outside (c :: cs)) :
    (Lexeme.first c cs).1.Terminated ∧ Outside (Lexeme.first c cs).2 := by
  generalize htext : c :: cs = text at h
  cases h with
  | nil => cases htext
  | plain hc ht =>
    obtain ⟨rfl, rfl⟩ := List.cons.inj htext
    have hquote : (Lexeme.kindAt c).quote? = none := by
      unfold Lexeme.kindAt
      grind [LexemeKind.quote?]
    refine ⟨fun q hq => ?_, ?_⟩
    · cases hquote.symm.trans hq
    · unfold Lexeme.first
      cases hk : Lexeme.kindAt c with
      | word => exact ht.dropWhile_word
      | openParen | closeParen | symbol => exact ht
      | string | character => simp [hk, LexemeKind.quote?] at hquote
  | @literal q l t parts hq hl ht =>
    obtain ⟨l, rfl⟩ : ∃ l', l = q :: l' := ⟨_, hl.text⟩
    rw [List.cons_append] at htext
    obtain ⟨rfl, rfl⟩ := List.cons.inj htext
    have hkind := kindAt_quote hq
    obtain ⟨-, hb⟩ := Lexeme.of_kindAt_quote hkind
    rw [Lexeme.first_of_quote hkind, Literal.closed_of_reads hb hl t]
    refine ⟨fun q hq => ⟨parts, ?_⟩, ht⟩
    obtain rfl : c = q := Option.some.inj (hkind.symm.trans hq)
    exact hl

theorem terminated (h : Outside t) : ∀ l ∈ lexemes t, l.Terminated := by
  fun_induction lexemes t with
  | case1 => simp
  | case2 c cs ih =>
    obtain ⟨hfirst, hrest⟩ := h.first
    exact List.forall_mem_cons.mpr ⟨hfirst, ih hrest⟩

end Outside

/-- The first lexeme of a text has no quote, or it is a literal. One without a closing quote leaves
nothing, or a lone backslash. -/
theorem first_cases (c : Char) (cs : List Char) :
    (∀ d ∈ (Lexeme.first c cs).1.text, d ≠ '"' ∧ d ≠ '\'') ∨
    ∃ q parts closed, (q = '"' ∨ q = '\'') ∧ Reads q (Lexeme.first c cs).1.text parts closed ∧
      (closed = false → (Lexeme.first c cs).2 = [] ∨ (Lexeme.first c cs).2 = ['\\']) := by
  cases hk : (Lexeme.kindAt c).quote? with
  | some q =>
    obtain ⟨rfl, -⟩ := Lexeme.of_kindAt_quote hk
    rw [Lexeme.first_of_quote hk]
    obtain ⟨parts, closed, hreads, hleaves⟩ := Literal.exists_reads_or_leaves c cs
    exact .inr ⟨c, parts, closed, Lexeme.quote_eq hk, hreads, hleaves⟩
  | none =>
    have hc := Lexeme.not_quote_of_kindAt hk
    refine .inl (List.forall_mem_cons.mpr ⟨hc, ?_⟩)
    cases hkind : Lexeme.kindAt c with
    | string | character => simp [hkind, LexemeKind.quote?] at hk
    | word => exact fun d hd => Lexeme.not_quote_of_isWordChar (List.mem_takeWhile_imp hd)
    | openParen | closeParen | symbol => simp

/-- Between two lexemes a text is outside of every literal, unless nothing is left of it but a lone
backslash. -/
theorem outside_or_leaves (h : lexemes text = front ++ ls) :
    Outside (front.flatMap Lexeme.text) ∨ ls.flatMap Lexeme.text = [] ∨
      ls.flatMap Lexeme.text = ['\\'] := by
  fun_induction lexemes text generalizing front with
  | case1 =>
    obtain ⟨rfl, rfl⟩ := List.append_eq_nil_iff.mp h.symm
    exact .inl .nil
  | case2 c cs ih =>
    cases front with
    | nil => exact .inl .nil
    | cons l front =>
      rw [List.cons_append] at h
      obtain ⟨rfl, hrest⟩ := List.cons.inj h
      have htext : (Lexeme.first c cs).2 = front.flatMap Lexeme.text ++ ls.flatMap Lexeme.text := by
        rw [← List.flatMap_append, ← hrest, flatMap_text_lexemes]
      rw [List.flatMap_cons]
      rcases first_cases c cs with hplain | ⟨q, parts, closed, hq, hreads, hleaves⟩
      · exact (ih hrest).imp_left (.append hplain)
      · cases closed with
        | true => exact (ih hrest).imp_left (.literal hq hreads)
        | false =>
          refine .inr ?_
          rw [htext] at hleaves
          rcases hleaves rfl with hnil | hone
          · exact .inl (List.append_eq_nil_iff.mp hnil).2
          · grind [List.append_eq_singleton_iff]

/-- What comes before a quote outside of every literal makes no difference to the lexemes from there
on. -/
theorem Outside.lexemes_append (h : Outside before) (hq : q = '"' ∨ q = '\'') (t : List Char) :
    lexemes (before ++ q :: t) = lexemes before ++ lexemes (q :: t) := by
  have hw : isWordChar q = false := by rcases hq with rfl | rfl <;> decide
  exact lexemes_append_of_terminated hw h.terminated t

/-- A literal that is closed, or that nothing follows but a lone backslash, is a lexeme. -/
theorem lexemes_literal (hq : q = '"' ∨ q = '\'') (hl : Reads q l parts closed)
    (hafter : closed = false → after = [] ∨ after = ['\\']) :
    lexemes (l ++ after) = ⟨Lexeme.kindAt q, l⟩ :: lexemes after := by
  obtain ⟨l, rfl⟩ : ∃ l', l = q :: l' := ⟨_, hl.text⟩
  have hkind := kindAt_quote hq
  obtain ⟨-, hb⟩ := Lexeme.of_kindAt_quote hkind
  have hscan : Literal.scan (fun _ => false) q (l ++ after) = (l, after) := by
    cases closed with
    | true => exact Literal.closed_of_reads hb hl after
    | false =>
      have htext : l = Literal.inside parts := by simpa using hl.text
      rw [htext, Literal.open_inside hb hl.plain fun _ _ => rfl]
      rcases hafter rfl with rfl | rfl
      · simp [Literal.scan]
      · simp [Literal.scan, hb.symm]
  rw [List.cons_append, lexemes, Lexeme.first_of_quote hkind, hscan]

/-- A literal among the lexemes of a text is closed, or nothing follows it but a lone backslash. -/
theorem reads_of_lexemes_eq (h : lexemes t = ⟨kind, l⟩ :: back) (hq : kind.quote? = some q) :
    ∃ parts closed, Reads q l parts closed ∧
      (closed = false → back.flatMap Lexeme.text = [] ∨ back.flatMap Lexeme.text = ['\\']) := by
  cases t with
  | nil =>
    rw [lexemes] at h
    cases h
  | cons c cs =>
    rw [lexemes] at h
    obtain ⟨hfirst, rfl⟩ := List.cons.inj h
    obtain rfl : Lexeme.kindAt c = kind := congrArg Lexeme.kind hfirst
    obtain ⟨rfl, -⟩ := Lexeme.of_kindAt_quote hq
    rw [Lexeme.first_of_quote hq] at hfirst ⊢
    obtain rfl : _ = l := congrArg Lexeme.text hfirst
    rw [flatMap_text_lexemes]
    exact Literal.exists_reads_or_leaves c cs

/-- The literals of a text are those among its lexemes. -/
theorem isLiteralAt_iff : IsLiteralAt text before l ↔ ∃ front kind q back, kind.quote? = some q ∧
    lexemes text = front ++ ⟨kind, l⟩ :: back ∧ front.flatMap Lexeme.text = before := by
  constructor
  · rintro ⟨houtside, q, parts, closed, after, hq, hreads, rfl, hafter⟩
    have hlex := lexemes_literal hq hreads hafter
    refine ⟨lexemes before, Lexeme.kindAt q, q, lexemes after, kindAt_quote hq, ?_,
      flatMap_text_lexemes before⟩
    have hl := hreads.text
    rw [← hlex, hl, List.cons_append, houtside.lexemes_append hq]
  · rintro ⟨front, kind, q, back, hkind, hlex, rfl⟩
    obtain ⟨parts, closed, hreads, hafter⟩ := reads_of_lexemes_eq (lexemes_flatMap_text hlex) hkind
    have hq := Lexeme.quote_eq hkind
    refine ⟨?_, q, parts, closed, back.flatMap Lexeme.text, hq, hreads, ?_, hafter⟩
    · have hl := hreads.text
      have hb : q ≠ '\\' := by rcases hq with rfl | rfl <;> decide
      rcases outside_or_leaves hlex with houtside | hnil | hone
      · exact houtside
      · simp [hl] at hnil
      · simp [hl, hb] at hone
    · rw [← flatMap_text_lexemes text, hlex, List.flatMap_append, List.flatMap_cons]

end Literals

/-! ## The words of a text -/

/-- The word characters `w` of the text are all that stand between `before` and what comes after
them, and there is at least one. -/
structure IsWordAt (text before w : List Char) : Prop where
  ne_nil : w ≠ []
  chars : ∀ c ∈ w, isWordChar c = true
  start : ∀ c ∈ before.getLast?, isWordChar c = false
  stop : ∃ after, text = before ++ (w ++ after) ∧ ∀ c ∈ after.head?, isWordChar c = false

/-- No literal of the text has a character of `w`, which stands after `before`. -/
def OutsideLiterals (text before w : List Char) : Prop :=
  ∀ front l, IsLiteralAt text front l →
    (before ++ w).length ≤ front.length ∨ (front ++ l).length ≤ before.length

section Words

variable {text before t w : List Char} {l : Lexeme} {front back : List Lexeme}

/-- A word character outside of every literal belongs to a word. -/
theorem kind_eq_word (hl : l ∈ lexemes t) (hq : l.kind.quote? = none) {c : Char} (hc : c ∈ l.text)
    (hw : isWordChar c = true) : l.kind = .word := by
  by_contra hk
  obtain ⟨d, rfl⟩ := exists_text_eq_singleton hl hq hk
  obtain rfl : c = d := List.mem_singleton.mp hc
  exact hk (Lexeme.kindAt_eq_word hw)

/-- What comes right before a word does not end in a word character. -/
theorem getLast?_of_lexemes_eq (h : lexemes t = l :: ⟨.word, w⟩ :: back) :
    ∀ c ∈ l.text.getLast?, isWordChar c = false := by
  have hl : l ∈ lexemes t := by simp [h]
  obtain ⟨hne, hw⟩ := isWordChar_of_mem_word (t := t) (l := ⟨.word, w⟩) (by simp [h]) rfl
  intro c hc
  cases hq : l.kind.quote? with
  | some q =>
    obtain ⟨parts, closed, hreads, hleaves⟩ := reads_of_lexemes_eq h hq
    cases closed with
    | true =>
      have hlast : l.text.getLast? = some q := by
        rw [hreads.text, if_pos rfl, ← List.cons_append, List.getLast?_concat]
      obtain rfl : q = c := Option.some.inj (hlast.symm.trans hc)
      rcases Lexeme.quote_eq hq with rfl | rfl <;> decide
    | false =>
      rw [List.flatMap_cons] at hleaves
      rcases hleaves rfl with hnil | hone
      · exact absurd (List.append_eq_nil_iff.mp hnil).1 hne
      · have hw' : '\\' ∈ w := by grind [List.append_eq_singleton_iff]
        exact absurd (hw _ hw') (by decide)
  | none =>
    by_cases hk : l.kind = .word
    · have htext : l.text ++ (w ++ back.flatMap Lexeme.text) = t := by
        rw [← flatMap_text_lexemes t, h, List.flatMap_cons, List.flatMap_cons]
      obtain ⟨kind, word⟩ := l
      obtain rfl : kind = .word := hk
      obtain ⟨d, w, rfl⟩ := List.exists_cons_of_ne_nil hne
      have hstop := head?_of_lexemes_word (htext ▸ h) d rfl
      rw [hw d List.mem_cons_self] at hstop
      cases hstop
    · by_contra hword
      exact hk (kind_eq_word hl hq (List.mem_of_getLast? hc) (by simpa using hword))

/-- The words among the lexemes are words of the text. -/
theorem isWordAt_of_lexemes_eq (h : lexemes text = front ++ ⟨.word, w⟩ :: back) :
    IsWordAt text (front.flatMap Lexeme.text) w := by
  have hback := lexemes_flatMap_text h
  rw [List.flatMap_cons] at hback
  obtain ⟨hne, hw⟩ := isWordChar_of_mem_word (hback ▸ List.mem_cons_self) rfl
  refine ⟨hne, hw, ?_, back.flatMap Lexeme.text, ?_, head?_of_lexemes_word hback⟩
  · rcases List.eq_nil_or_concat front with rfl | ⟨front, l, rfl⟩
    · simp
    · have hlast : lexemes text = front ++ (l :: ⟨.word, w⟩ :: back) := by simp [h]
      have hne : l.text ≠ [] := by
        obtain ⟨c, cs, rfl⟩ := exists_first_of_mem (t := text) (l := l) (by simp [h])
        exact List.cons_ne_nil _ _
      rw [List.concat_eq_append, List.flatMap_append, List.flatMap_singleton,
        List.getLast?_append_of_ne_nil _ hne]
      exact getLast?_of_lexemes_eq (lexemes_flatMap_text hlast)
  · rw [← flatMap_text_lexemes text, h, List.flatMap_append, List.flatMap_cons]

/-- A word of the text that meets no literal is among the lexemes. -/
theorem mem_lexemes_of_isWordAt {before : List Char} (h : IsWordAt text before w)
    (houtside : OutsideLiterals text before w) : ⟨.word, w⟩ ∈ lexemes text := by
  obtain ⟨hne, hw, hstart, after, htext, hstop⟩ := h
  obtain ⟨c, w, rfl⟩ := List.exists_cons_of_ne_nil hne
  obtain ⟨hc, hw⟩ := List.forall_mem_cons.mp hw
  rw [List.cons_append, ← flatMap_text_lexemes text] at htext
  obtain ⟨front, ⟨kind, v⟩, back, a, b, hlex, rfl, rfl, hafter⟩ := exists_of_flatMap_eq htext
  have hmem : ⟨kind, a ++ c :: b⟩ ∈ lexemes text := by simp [hlex]
  have hquote : kind.quote? = none := by
    by_contra hsome
    obtain ⟨q, hq⟩ := Option.ne_none_iff_exists'.mp hsome
    have hlength := houtside _ _ (isLiteralAt_iff.mpr ⟨front, kind, q, back, hq, hlex, rfl⟩)
    simp only [List.length_append, List.length_cons] at hlength
    omega
  obtain rfl : kind = .word := kind_eq_word hmem hquote (c := c) (by simp) hc
  have hchars := (isWordChar_of_mem_word hmem rfl).2
  -- The lexeme begins with the word, since no word character comes before it.
  have ha : a = [] := by
    by_contra hne
    have hlast := hstart (a.getLast hne) (by
      rw [List.getLast?_append_of_ne_nil _ hne, List.getLast?_eq_some_getLast hne]
      rfl)
    rw [hchars _ (by simp)] at hlast
    cases hlast
  subst ha
  -- It ends with the word too: neither can go on.
  have hrest := lexemes_flatMap_text hlex
  rw [List.flatMap_cons] at hrest
  have hb : ∀ d ∈ b, isWordChar d = true := fun d hd => hchars d (by simp [hd])
  have htake := (takeWhile_word hw hstop).1
  rw [hafter, (takeWhile_word hb (head?_of_lexemes_word hrest)).1] at htake
  rwa [← htake]

/-- The words among the lexemes are the words of the text that meet no literal. -/
theorem mem_lexemes_word_iff : ⟨.word, w⟩ ∈ lexemes text ↔
    ∃ before, IsWordAt text before w ∧ OutsideLiterals text before w := by
  constructor
  · intro hmem
    obtain ⟨front, back, hlex⟩ := List.append_of_mem hmem
    refine ⟨front.flatMap Lexeme.text, isWordAt_of_lexemes_eq hlex, fun before l hl => ?_⟩
    obtain ⟨front', kind, q, back', hkind, hlex', rfl⟩ := isLiteralAt_iff.mp hl
    rcases append_cons_cases (hlex.symm.trans hlex') with ⟨mid, rfl⟩ | ⟨mid, rfl⟩ | heq
    · refine .inl ?_
      simp only [List.flatMap_append, List.flatMap_cons, List.length_append]
      omega
    · refine .inr ?_
      simp only [List.flatMap_append, List.flatMap_cons, List.length_append]
      omega
    · obtain ⟨rfl, -⟩ := Lexeme.mk.inj heq
      cases hkind
  · rintro ⟨before, hword, houtside⟩
    exact mem_lexemes_of_isWordAt hword houtside

end Words

/-! ## Keywords -/

/-- **Keywords.** A text contains a keyword if and only if a word of it that meets no literal is the
keyword. It begins with the keyword if and only if the keyword is what comes first and no word
character comes next, and then it contains the keyword. -/
theorem Statement.keyword_search {keyword : String} (hne : keyword.toList ≠ [])
    (hw : ∀ c ∈ keyword.toList, isWordChar c = true) (text : List Char) :
    (containsKeyword keyword text = true ↔ ∃ before, IsWordAt text before keyword.toList ∧
      OutsideLiterals text before keyword.toList) ∧
    (startsWithKeyword keyword text = true ↔ ∃ after, text = keyword.toList ++ after ∧
      ∀ c ∈ after.head?, isWordChar c = false) ∧
    (startsWithKeyword keyword text = true → containsKeyword keyword text = true) := by
  have hcontains :
      containsKeyword keyword text = true ↔ ⟨.word, keyword.toList⟩ ∈ lexemes text := by
    rw [containsKeyword, List.contains_iff_mem]
  have hstarts : startsWithKeyword keyword text = true ↔ ∃ after, text = keyword.toList ++ after ∧
      ∀ c ∈ after.head?, isWordChar c = false := by
    have hnext (after : List Char) : (!after.head?.any isWordChar) = true ↔
        ∀ c ∈ after.head?, isWordChar c = false := by
      cases after <;> simp
    rw [startsWithKeyword, Text.startsWith, Bool.and_eq_true, List.isPrefixOf_iff_prefix, hnext]
    constructor
    · rintro ⟨⟨after, rfl⟩, hafter⟩
      exact ⟨after, rfl, by rwa [List.drop_left] at hafter⟩
    · rintro ⟨after, rfl, hafter⟩
      exact ⟨⟨after, rfl⟩, by rwa [List.drop_left]⟩
  refine ⟨hcontains.trans mem_lexemes_word_iff, hstarts, fun h => ?_⟩
  obtain ⟨after, rfl, hafter⟩ := hstarts.mp h
  rw [hcontains, lexemes_word hne hw hafter]
  exact List.mem_cons_self

/-- A `return` in a literal, after an escaped quote, and one after it. -/
theorem Statement.keyword_search_quoted :
    let text := "printf(\"\\\" return\"); return".toList
    "return".toList ≠ [] ∧ (∀ c ∈ "return".toList, isWordChar c = true) ∧
      containsKeyword "return" text = true ∧ startsWithKeyword "return" text = false ∧
      ∃ before, IsWordAt text before "return".toList ∧
        OutsideLiterals text before "return".toList := by
  intro text
  have hne : "return".toList ≠ [] := by decide
  have hw : ∀ c ∈ "return".toList, isWordChar c = true := List.all_eq_true.mp (by decide)
  have hcontains : containsKeyword "return" text = true := by decide +kernel
  have hword := (keyword_search hne hw text).1.mp hcontains
  exact ⟨hne, hw, hcontains, by decide +kernel, hword⟩

end Flowchart
