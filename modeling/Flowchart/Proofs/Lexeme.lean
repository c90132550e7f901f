import Flowchart.Lexeme
import Flowchart.Proofs.Literal.Parts
import Flowchart.Proofs.Pieces.Plain

/-!
# Lexemes of a text

* `exists_first_of_mem`, `exists_reads_of_mem`: what the lexemes of a text look like.
* `isSymbolAt_or_inLiteral`: a character of a text that belongs to no word is a symbol, or it stands
  in a literal; not both (`not_isSymbolAt_of_inLiteral`).
* `lexemes_flatMap_text`: the lexemes from one of them on are those of the text from there on.
* `lexemes_append_of_terminated`: the lexemes of a text whose literals are closed do not depend on
  what comes after it; `lexemes_append` is the case of a text without quotes.
-/

namespace Flowchart

open Literal (Reads)

/-! ## Kinds of lexemes -/

/-- The quote that a literal begins with. -/
def LexemeKind.quote? : LexemeKind → Option Char
  | .string => some '"'
  | .character => some '\''
  | .word | .openParen | .closeParen | .symbol => none

namespace Lexeme

variable {c q : Char} {l : Lexeme} {t : List Char}

/-- The lexeme is a literal. -/
def IsLiteral (l : Lexeme) : Prop := l.kind = .string ∨ l.kind = .character

/-- The lexeme has a closing quote, if it is a literal. -/
def Terminated (l : Lexeme) : Prop :=
  ∀ quote, l.kind.quote? = some quote → ∃ parts, Reads quote l.text parts true

theorem isLiteral_iff : l.IsLiteral ↔ ∃ q, l.kind.quote? = some q := by
  unfold IsLiteral
  cases l.kind <;> simp [LexemeKind.quote?]

theorem quote_eq {kind : LexemeKind} (h : kind.quote? = some q) : q = '"' ∨ q = '\'' := by
  unfold LexemeKind.quote? at h
  grind

theorem of_kindAt_quote (h : (kindAt c).quote? = some q) : c = q ∧ q ≠ '\\' := by
  unfold kindAt at h
  grind [LexemeKind.quote?]

theorem not_quote_of_kindAt (h : (kindAt c).quote? = none) : c ≠ '"' ∧ c ≠ '\'' := by
  unfold kindAt at h
  grind [LexemeKind.quote?]

theorem not_quote_of_isWordChar (hc : isWordChar c = true) : c ≠ '"' ∧ c ≠ '\'' := by
  constructor <;> (rintro rfl; exact absurd hc (by decide))

theorem kindAt_eq_word (hc : isWordChar c = true) : kindAt c = .word := by
  simp [kindAt, not_quote_of_isWordChar hc, hc]

theorem kindAt_eq_symbol (hq : c ≠ '"' ∧ c ≠ '\'') (hp : c ≠ '(' ∧ c ≠ ')')
    (hw : isWordChar c = false) : kindAt c = .symbol := by
  simp [kindAt, hq, hp, hw]

/-- A literal reaches as far as the scan after its opening quote. -/
theorem first_of_quote (h : (kindAt c).quote? = some q) (cs : List Char) :
    first c cs = (⟨kindAt c, c :: (Literal.scan (fun _ => false) c cs).1⟩,
      (Literal.scan (fun _ => false) c cs).2) := by
  unfold first
  cases hk : kindAt c with
  | string | character => rfl
  | word | openParen | closeParen | symbol => simp [hk, LexemeKind.quote?] at h

end Lexeme

/-! ## What the lexemes of a text look like -/

section Mem

variable {t : List Char} {l : Lexeme}

theorem exists_first_of_mem (hl : l ∈ lexemes t) : ∃ c cs, l = (Lexeme.first c cs).1 := by
  fun_induction lexemes t with
  | case1 => cases hl
  | case2 c cs ih =>
    rcases List.mem_cons.mp hl with rfl | hl
    · exact ⟨c, cs, rfl⟩
    · exact ih hl

/-- Every literal can be read. -/
theorem exists_reads_of_mem {q : Char} (hl : l ∈ lexemes t) (hq : l.kind.quote? = some q) :
    ∃ parts closed, Reads q l.text parts closed := by
  obtain ⟨c, cs, rfl⟩ := exists_first_of_mem hl
  have hkind : (Lexeme.kindAt c).quote? = some q := hq
  obtain ⟨rfl, -⟩ := Lexeme.of_kindAt_quote hkind
  rw [Lexeme.first_of_quote hkind]
  obtain ⟨parts, closed, hreads, -⟩ := Literal.exists_reads (fun _ => false) c cs
  exact ⟨parts, closed, hreads⟩

theorem paren_of_kindAt {c : Char} :
    (Lexeme.kindAt c = .openParen → c = '(') ∧ (Lexeme.kindAt c = .closeParen → c = ')') ∧
    (Lexeme.kindAt c = .word → isWordChar c = true) ∧
    (Lexeme.kindAt c = .symbol → c ≠ '(' ∧ c ≠ ')') ∧
    (Lexeme.kindAt c = .string → c = '"') ∧ (Lexeme.kindAt c = .character → c = '\'') := by
  unfold Lexeme.kindAt
  grind

/-- A word is a run of word characters. -/
theorem isWordChar_of_mem_word (hl : l ∈ lexemes t) (hk : l.kind = .word) :
    l.text ≠ [] ∧ ∀ c ∈ l.text, isWordChar c = true := by
  obtain ⟨c, cs, rfl⟩ := exists_first_of_mem hl
  have hkind : Lexeme.kindAt c = .word := hk
  have htext : (Lexeme.first c cs).1.text = c :: cs.takeWhile isWordChar := by
    simp only [Lexeme.first, hkind, Lexeme.extent]
  rw [htext]
  exact ⟨List.cons_ne_nil _ _,
    List.forall_mem_cons.mpr ⟨paren_of_kindAt.2.2.1 hkind, fun d => List.mem_takeWhile_imp⟩⟩

/-- A lexeme that is neither a literal nor a word is a single character. -/
theorem exists_text_eq_singleton (hl : l ∈ lexemes t) (hq : l.kind.quote? = none)
    (hw : l.kind ≠ .word) : ∃ c, l = ⟨Lexeme.kindAt c, [c]⟩ := by
  obtain ⟨c, cs, rfl⟩ := exists_first_of_mem hl
  refine ⟨c, ?_⟩
  change (Lexeme.kindAt c).quote? = none at hq
  change Lexeme.kindAt c ≠ .word at hw
  unfold Lexeme.first
  cases hk : Lexeme.kindAt c with
  | string | character => simp [hk, LexemeKind.quote?] at hq
  | word => exact absurd hk hw
  | openParen | closeParen | symbol => rfl

end Mem

/-! ## Where a character stands -/

/-- A character of a text that is put together of parts is a character of one of them. -/
theorem exists_of_flatMap_eq {α β : Type} {f : α → List β} {ls : List α} {before after : List β}
    {c : β} (h : ls.flatMap f = before ++ c :: after) :
    ∃ front l back a b, ls = front ++ l :: back ∧ f l = a ++ c :: b ∧
      before = front.flatMap f ++ a ∧ after = b ++ back.flatMap f := by
  induction ls generalizing before with
  | nil => simp at h
  | cons l ls ih =>
    rw [List.flatMap_cons] at h
    rcases List.append_eq_append_iff.mp h with ⟨a, rfl, hls⟩ | ⟨b, hl, hafter⟩
    · obtain ⟨front, l', back, a', b, rfl, hl', rfl, rfl⟩ := ih hls
      exact ⟨l :: front, l', back, a', b, rfl, hl', by rw [List.flatMap_cons, List.append_assoc], rfl⟩
    · cases b with
      | nil =>
        have hls : ls.flatMap f = [] ++ c :: after := hafter.symm
        obtain ⟨front, l', back, a', b', rfl, hl', hnil, rfl⟩ := ih hls
        obtain ⟨hfront, rfl⟩ := List.append_eq_nil_iff.mp hnil.symm
        refine ⟨l :: front, l', back, [], b', rfl, hl', ?_, rfl⟩
        rw [List.flatMap_cons, hfront, hl, List.append_nil, List.append_nil, List.append_nil]
      | cons d b =>
        obtain ⟨rfl, rfl⟩ := List.cons.inj hafter
        exact ⟨[], l, ls, before, b, rfl, hl, rfl, rfl⟩

section Where

variable {text before after : List Char} {c : Char}

/-- The character after `before` is a lexeme of its own. -/
def IsSymbolAt (c : Char) (text before : List Char) : Prop :=
  ∃ front back, lexemes text = front ++ ⟨.symbol, [c]⟩ :: back ∧
    front.flatMap Lexeme.text = before

/-- The character after `before` stands in a literal. -/
def InLiteral (c : Char) (text before : List Char) : Prop :=
  ∃ front l back a b, lexemes text = front ++ l :: back ∧ l.IsLiteral ∧ l.text = a ++ c :: b ∧
    before = front.flatMap Lexeme.text ++ a

/-- A character that is neither part of a word nor a parenthesis is a symbol, or it stands in a
literal. -/
theorem isSymbolAt_or_inLiteral (hw : isWordChar c = false) (hp : c ≠ '(' ∧ c ≠ ')')
    (h : text = before ++ c :: after) : IsSymbolAt c text before ∨ InLiteral c text before := by
  rw [← flatMap_text_lexemes text] at h
  obtain ⟨front, l, back, a, b, hlex, htext, rfl, -⟩ := exists_of_flatMap_eq h
  have hl : l ∈ lexemes text := by simp [hlex]
  by_cases hq : l.kind.quote? = none
  · have hword : l.kind ≠ .word := fun hk => by
      have := (isWordChar_of_mem_word hl hk).2 c (by simp [htext])
      rw [hw] at this
      cases this
    obtain ⟨d, rfl⟩ := exists_text_eq_singleton hl hq hword
    obtain ⟨rfl, rfl⟩ : a = [] ∧ d = c := by
      cases a <;> simp_all
    have hkind := Lexeme.kindAt_eq_symbol (Lexeme.not_quote_of_kindAt hq) hp hw
    exact .inl ⟨front, back, by rw [hlex, hkind], by rw [List.append_nil]⟩
  · obtain ⟨q, hq⟩ := Option.ne_none_iff_exists'.mp hq
    exact .inr ⟨front, l, back, a, b, hlex, Lexeme.isLiteral_iff.mpr ⟨q, hq⟩, htext, rfl⟩

/-- Of two members of a list one comes before the other, or they are the same. -/
theorem append_cons_cases {α : Type} {a b : α} {as bs cs ds : List α}
    (h : as ++ a :: bs = cs ++ b :: ds) :
    (∃ mid, cs = as ++ a :: mid) ∨ (∃ mid, as = cs ++ b :: mid) ∨ a = b := by
  rcases List.append_eq_append_iff.mp h with ⟨mid, rfl, hmid⟩ | ⟨mid, rfl, hmid⟩
  · cases mid with
    | nil => exact .inr (.inr (List.cons.inj hmid).1)
    | cons m mid => exact .inl ⟨mid, by rw [(List.cons.inj hmid).1]⟩
  · cases mid with
    | nil => exact .inr (.inr (List.cons.inj hmid).1.symm)
    | cons m mid => exact .inr (.inl ⟨mid, by rw [(List.cons.inj hmid).1]⟩)

/-- Not both. -/
theorem not_isSymbolAt_of_inLiteral (h : InLiteral c text before) : ¬ IsSymbolAt c text before := by
  obtain ⟨front, l, back, a, b, hlex, hliteral, htext, rfl⟩ := h
  rintro ⟨front', back', hlex', hbefore⟩
  have hne : l ≠ ⟨.symbol, [c]⟩ := by
    rintro rfl
    simp [Lexeme.IsLiteral] at hliteral
  have hlength := congrArg List.length hbefore
  rcases append_cons_cases (hlex.symm.trans hlex') with ⟨mid, rfl⟩ | ⟨mid, rfl⟩ | heq
  · simp only [List.flatMap_append, List.flatMap_cons, List.length_append, htext,
      List.length_cons] at hlength
    omega
  · simp only [List.flatMap_append, List.flatMap_cons, List.length_append, List.length_cons]
      at hlength
    omega
  · exact hne heq

/-- The lexemes from one of them on are those of the text from there on. -/
theorem lexemes_flatMap_text {front ls : List Lexeme} (h : lexemes text = front ++ ls) :
    lexemes (ls.flatMap Lexeme.text) = ls := by
  fun_induction lexemes text generalizing front with
  | case1 =>
    obtain ⟨rfl, rfl⟩ := List.append_eq_nil_iff.mp h.symm
    rw [List.flatMap_nil, lexemes]
  | case2 d cs ih =>
    cases front with
    | nil =>
      obtain rfl : _ = ls := h
      rw [List.flatMap_cons, flatMap_text_lexemes, Lexeme.first_append, lexemes]
    | cons l front => exact ih (List.cons.inj h).2

end Where

/-! ## Texts one after the other -/

/-- No literal begins in the text. -/
def Unquoted (t : List Char) : Prop := ∀ c ∈ t, c ≠ '"' ∧ c ≠ '\''

theorem Unquoted.of_word {w : List Char} (hw : w.all isWordChar = true) : Unquoted w :=
  fun c hc => Lexeme.not_quote_of_isWordChar (List.all_eq_true.mp hw c hc)

theorem Unquoted.rest_first {c : Char} {cs : List Char} (h : Unquoted (c :: cs)) :
    Unquoted (Lexeme.first c cs).2 := by
  intro d hd
  refine h d ?_
  rw [← Lexeme.first_append c cs]
  exact List.mem_append_right _ hd

theorem Unquoted.terminated {t : List Char} (ht : Unquoted t) : ∀ l ∈ lexemes t, l.Terminated := by
  intro l hl q hq
  obtain ⟨parts, closed, hreads⟩ := exists_reads_of_mem hl hq
  have hmem : q ∈ t := by
    rw [← flatMap_text_lexemes t]
    exact List.mem_flatMap_of_mem hl (hreads.text ▸ List.mem_cons_self)
  rcases Lexeme.quote_eq hq with rfl | rfl
  · exact absurd rfl (ht _ hmem).1
  · exact absurd rfl (ht _ hmem).2

theorem Lexeme.first_append_separator {s : Char} (hs : isWordChar s = false) {c : Char}
    (hc : c ≠ '"' ∧ c ≠ '\'') (cs rest : List Char) :
    first c (cs ++ s :: rest) = ((first c cs).1, (first c cs).2 ++ s :: rest) := by
  have hkind : kindAt c ≠ .string ∧ kindAt c ≠ .character := by
    unfold kindAt
    grind
  unfold first
  cases hk : kindAt c with
  | string => exact absurd hk hkind.1
  | character => exact absurd hk hkind.2
  | word => simp only [extent, takeWhile_append_stop hs, dropWhile_append_stop hs]
  | openParen | closeParen | symbol => rfl

/-- A lexeme that is no open literal ends before a character that belongs to no word. -/
theorem Lexeme.Terminated.first_append {s c : Char} {cs : List Char}
    (h : (first c cs).1.Terminated) (hs : isWordChar s = false) (rest : List Char) :
    first c (cs ++ s :: rest) = ((first c cs).1, (first c cs).2 ++ s :: rest) := by
  cases hq : (kindAt c).quote? with
  | none => exact first_append_separator hs (not_quote_of_kindAt hq) cs rest
  | some q =>
    obtain ⟨rfl, hb⟩ := of_kindAt_quote hq
    obtain ⟨parts, hreads⟩ := h c hq
    rw [first_of_quote hq] at hreads ⊢
    have hclosed := Literal.closed_of_reads hb hreads
    have happend : Literal.scan (fun _ => false) c (cs ++ s :: rest) =
        ((Literal.scan (fun _ => false) c cs).1,
          (Literal.scan (fun _ => false) c cs).2 ++ s :: rest) := by
      conv => lhs; rw [← Literal.scan_append (fun _ => false) c cs, List.append_assoc, hclosed]
    rw [first_of_quote hq, happend]

theorem lexemes_append_of_terminated {s : Char} (hs : isWordChar s = false) {t : List Char}
    (ht : ∀ l ∈ lexemes t, l.Terminated) (rest : List Char) :
    lexemes (t ++ s :: rest) = lexemes t ++ lexemes (s :: rest) := by
  fun_induction lexemes t with
  | case1 => rfl
  | case2 c cs ih =>
    obtain ⟨hfirst, hrest⟩ := List.forall_mem_cons.mp ht
    rw [List.cons_append, lexemes, hfirst.first_append hs]
    exact congrArg _ (ih hrest)

theorem lexemes_append {s : Char} (hs : isWordChar s = false) {t : List Char} (ht : Unquoted t)
    (rest : List Char) : lexemes (t ++ s :: rest) = lexemes t ++ lexemes (s :: rest) :=
  lexemes_append_of_terminated hs ht.terminated rest

theorem lexemes_openParen (cs : List Char) :
    lexemes ('(' :: cs) = ⟨.openParen, ['(']⟩ :: lexemes cs := by
  rw [lexemes]
  rfl

theorem lexemes_closeParen (cs : List Char) :
    lexemes (')' :: cs) = ⟨.closeParen, [')']⟩ :: lexemes cs := by
  rw [lexemes]
  rfl

theorem lexemes_symbol {c : Char} (hq : c ≠ '"' ∧ c ≠ '\'') (hp : c ≠ '(' ∧ c ≠ ')')
    (hw : isWordChar c = false) (cs : List Char) :
    lexemes (c :: cs) = ⟨.symbol, [c]⟩ :: lexemes cs := by
  rw [lexemes, Lexeme.first, Lexeme.kindAt_eq_symbol hq hp hw]
  rfl

theorem lexemes_word {w rest : List Char} (hne : w ≠ []) (hw : ∀ c ∈ w, isWordChar c = true)
    (hrest : ∀ c ∈ rest.head?, isWordChar c = false) :
    lexemes (w ++ rest) = ⟨.word, w⟩ :: lexemes rest := by
  obtain ⟨c, w, rfl⟩ := List.exists_cons_of_ne_nil hne
  obtain ⟨hc, hw⟩ := List.forall_mem_cons.mp hw
  obtain ⟨htake, hdrop⟩ := takeWhile_word hw hrest
  rw [List.cons_append, lexemes, Lexeme.first, Lexeme.kindAt_eq_word hc]
  simp only [Lexeme.extent, htake, hdrop]

/-- After a word there is no word character. -/
theorem head?_of_lexemes_word {w rest : List Char} {ls : List Lexeme}
    (h : lexemes (w ++ rest) = ⟨.word, w⟩ :: ls) : ∀ c ∈ rest.head?, isWordChar c = false := by
  obtain ⟨hne, hall⟩ := isWordChar_of_mem_word (h ▸ List.mem_cons_self) rfl
  obtain ⟨c, w, rfl⟩ := List.exists_cons_of_ne_nil hne
  obtain ⟨hc, hw⟩ := List.forall_mem_cons.mp hall
  rw [List.cons_append, lexemes, Lexeme.first, Lexeme.kindAt_eq_word hc] at h
  have htake := congrArg Lexeme.text (List.cons.inj h).1
  simp only [Lexeme.extent, List.cons.injEq, true_and, List.takeWhile_append_of_pos hw,
    List.append_right_eq_self] at htake
  intro d hd
  obtain ⟨rest, rfl⟩ := List.head?_eq_some_iff.mp hd
  by_contra hword
  rw [List.takeWhile_cons_of_pos (by simpa using hword)] at htake
  cases htake

end Flowchart
