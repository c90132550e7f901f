import Flowchart.Proofs.Lexeme
import Flowchart.Rule

/-!
# What headers and calls say

* `insideGroup_cons`: one step of reading inside a group.
* `parenthesized_group`: a header shows the text between its parentheses, if its groups balance
  (`groupsAfter`).
* `forCondition?_clauses`, `outputText?_call`, `inputTarget?_call`: the same for the other readers.
-/

namespace Flowchart

open Text (trim)

/-! ## Groups -/

/-- The number of groups open after the text, when `depth` are open before it; none if a parenthesis
closes a group that is not open. -/
def groupsAfter (depth : Nat) : List Char → Option Nat
  | [] => some depth
  | c :: cs =>
    if c = '(' then groupsAfter (depth + 1) cs
    else if c = ')' then
      match depth with
      | 0 => none
      | depth + 1 => groupsAfter depth cs
    else groupsAfter depth cs

theorem groupsAfter_cons_open (depth : Nat) (cs : List Char) :
    groupsAfter depth ('(' :: cs) = groupsAfter (depth + 1) cs := by
  rw [groupsAfter.eq_def]
  rfl

theorem groupsAfter_cons_close (depth : Nat) (cs : List Char) :
    groupsAfter (depth + 1) (')' :: cs) = groupsAfter depth cs := by
  rw [groupsAfter.eq_def]
  rfl

theorem groupsAfter_cons_flat {c : Char} (hc : c ≠ '(' ∧ c ≠ ')') (depth : Nat) (cs : List Char) :
    groupsAfter depth (c :: cs) = groupsAfter depth cs := by
  rw [groupsAfter.eq_def]
  simp [hc]

/-- A text without parentheses opens and closes nothing. -/
theorem groupsAfter_flat_append {w : List Char} (hw : ∀ c ∈ w, c ≠ '(' ∧ c ≠ ')') (depth : Nat)
    (t : List Char) : groupsAfter depth (w ++ t) = groupsAfter depth t := by
  induction w with
  | nil => rfl
  | cons c w ih =>
    obtain ⟨hc, hw⟩ := List.forall_mem_cons.mp hw
    rw [List.cons_append, groupsAfter_cons_flat hc, ih hw]

theorem groupsAfter_append (depth : Nat) (a b : List Char) :
    groupsAfter depth (a ++ b) = (groupsAfter depth a).bind (groupsAfter · b) := by
  fun_induction groupsAfter depth a with
  | case1 => rfl
  | case2 depth cs ih => rw [List.cons_append, groupsAfter_cons_open, ih]
  | case3 cs =>
    rw [List.cons_append, groupsAfter.eq_def]
    rfl
  | case4 cs _ depth ih => rw [List.cons_append, groupsAfter_cons_close, ih]
  | case5 depth c cs ho hc ih => rw [List.cons_append, groupsAfter_cons_flat ⟨ho, hc⟩, ih]

section InsideGroup

variable (depth : Nat) (t : List Char) (ls : List Lexeme)

theorem insideGroup_openParen : Statement.insideGroup depth (⟨.openParen, t⟩ :: ls) =
    (Statement.insideGroup (depth + 1) ls).map (⟨.openParen, t⟩ :: ·) := by
  rw [Statement.insideGroup.eq_def]

theorem insideGroup_closeParen : Statement.insideGroup (depth + 1) (⟨.closeParen, t⟩ :: ls) =
    (Statement.insideGroup depth ls).map (⟨.closeParen, t⟩ :: ·) := by
  rw [Statement.insideGroup.eq_def]

theorem insideGroup_flat {kind : LexemeKind} (ho : kind ≠ .openParen) (hc : kind ≠ .closeParen) :
    Statement.insideGroup depth (⟨kind, t⟩ :: ls) =
      (Statement.insideGroup depth ls).map (⟨kind, t⟩ :: ·) := by
  rw [Statement.insideGroup.eq_def]
  cases kind <;> simp_all

/-- The parentheses that open a group. -/
def Statement.openings (ls : List Lexeme) : Nat := ls.countP (·.kind = .openParen)

/-- The parentheses that close a group. -/
def Statement.closings (ls : List Lexeme) : Nat := ls.countP (·.kind = .closeParen)

/-- A lexeme closes the group that is read, or it is read past and changes how many groups are open
inside. -/
theorem insideGroup_cons (l : Lexeme) :
    (depth = 0 ∧ l.kind = .closeParen ∧
      ∀ ls, Statement.insideGroup depth (l :: ls) = some []) ∨
    ∃ m, depth + 1 + Statement.openings [l] = m + 1 + Statement.closings [l] ∧
      ∀ ls, Statement.insideGroup depth (l :: ls) =
        (Statement.insideGroup m ls).map (l :: ·) := by
  obtain ⟨kind, t⟩ := l
  unfold Statement.openings Statement.closings
  cases kind with
  | openParen => exact .inr ⟨depth + 1, by simp, insideGroup_openParen depth t⟩
  | closeParen =>
    cases depth with
    | zero => exact .inl ⟨rfl, rfl, fun _ => rfl⟩
    | succ depth => exact .inr ⟨depth, by simp, insideGroup_closeParen depth t⟩
  | string | character | word | symbol =>
    exact .inr ⟨depth, by simp, fun ls => insideGroup_flat depth t ls (by simp) (by simp)⟩

end InsideGroup

/-- Reading inside a group ends at the parenthesis after a text that closes the groups open. -/
theorem insideGroup_lexemes {t : List Char} (ht : Unquoted t) {depth : Nat}
    (hd : groupsAfter depth t = some 0) (rest : List Lexeme) :
    Statement.insideGroup depth (lexemes t ++ ⟨.closeParen, [')']⟩ :: rest) = some (lexemes t) := by
  fun_induction lexemes t generalizing depth with
  | case1 =>
    obtain rfl : depth = 0 := Option.some.inj hd
    rfl
  | case2 c cs ih =>
    have ih := @ih ht.rest_first
    obtain ⟨hopen, hclose, hword, hsymbol, hstring, hchar⟩ := @paren_of_kindAt c
    unfold Lexeme.first at ih ⊢
    cases hk : Lexeme.kindAt c with
    | string => exact absurd (hstring hk) (ht c List.mem_cons_self).1
    | character => exact absurd (hchar hk) (ht c List.mem_cons_self).2
    | word =>
      have hw : ∀ d ∈ c :: cs.takeWhile isWordChar, d ≠ '(' ∧ d ≠ ')' := by
        intro d hd
        have hdw : isWordChar d = true := by
          rcases List.mem_cons.mp hd with rfl | hd
          · exact hword hk
          · exact List.mem_takeWhile_imp hd
        constructor <;> (rintro rfl; exact absurd hdw (by decide))
      rw [← List.takeWhile_append_dropWhile (p := isWordChar) (l := cs), ← List.cons_append,
        groupsAfter_flat_append hw] at hd
      simp only [hk, Lexeme.extent] at ih ⊢
      rw [List.cons_append, insideGroup_flat _ _ _ (by simp) (by simp), ih hd]
      rfl
    | openParen =>
      obtain rfl := hopen hk
      simp only [hk, Lexeme.extent] at ih ⊢
      rw [groupsAfter_cons_open] at hd
      rw [List.cons_append, insideGroup_openParen, ih hd]
      rfl
    | closeParen =>
      obtain rfl := hclose hk
      simp only [hk, Lexeme.extent] at ih ⊢
      cases depth with
      | zero => simp [groupsAfter] at hd
      | succ depth =>
        rw [groupsAfter_cons_close] at hd
        rw [List.cons_append, insideGroup_closeParen, ih hd]
        rfl
    | symbol =>
      rw [groupsAfter_cons_flat (hsymbol hk)] at hd
      simp only [hk, Lexeme.extent] at ih ⊢
      rw [List.cons_append, insideGroup_flat _ _ _ (by simp) (by simp), ih hd]
      rfl

/-! ## What headers show -/

section BeforeLast

variable {c : Char} {a b : List Char}

theorem beforeLast?_append (h : c ∉ b) (a : List Char) :
    Statement.beforeLast? c (a ++ b) = Statement.beforeLast? c a := by
  have hall : ∀ d ∈ b.reverse, (d != c) = true := fun d hd => by
    simpa using ne_of_mem_of_not_mem (List.mem_reverse.mp hd) h
  unfold Statement.beforeLast?
  rw [List.reverse_append, List.dropWhile_append_of_pos hall]

theorem beforeLast?_append_cons (h : c ∉ b) (a : List Char) :
    Statement.beforeLast? c (a ++ c :: b) = some a := by
  rw [List.append_cons, beforeLast?_append h]
  simp [Statement.beforeLast?]

theorem beforeLast?_of_not_mem (h : c ∉ a) : Statement.beforeLast? c a = none :=
  beforeLast?_append h []

end BeforeLast

/-- The group of a text, past what stands before its first opening parenthesis. -/
theorem parenthesized_append_openParen {before : List Char} (h : '(' ∉ before)
    (inside : List Char) : Statement.parenthesized (before ++ '(' :: inside) =
      ((Statement.insideGroup 0 (lexemes inside)).map (·.flatMap Lexeme.text)).or
        (Statement.beforeLast? ')' inside) := by
  have hall : ∀ c ∈ before, (c != '(') = true := fun c hc => by
    simpa using ne_of_mem_of_not_mem hc h
  rw [Statement.parenthesized, List.dropWhile_append_of_pos hall]
  simp only [List.dropWhile_cons, bne_self_eq_false, Bool.false_eq_true, ↓reduceIte]
  cases Statement.insideGroup 0 (lexemes inside) <;> rfl

theorem parenthesized_of_not_mem {text : List Char} (h : '(' ∉ text) :
    Statement.parenthesized text = none := by
  have hnil : text.dropWhile (· != '(') = [] := by
    rw [List.dropWhile_eq_nil_iff]
    exact fun d hd => by simpa using ne_of_mem_of_not_mem hd h
  rw [Statement.parenthesized, hnil]

theorem parenthesized_group {k t : List Char} (hk : '(' ∉ k) (ht : Unquoted t)
    (hg : groupsAfter 0 t = some 0) :
    Statement.parenthesized (k ++ '(' :: (t ++ [')'])) = some t := by
  have hparen : lexemes [')'] = [⟨.closeParen, [')']⟩] := by decide +kernel
  have hlex : lexemes (t ++ [')']) = lexemes t ++ [⟨.closeParen, [')']⟩] := by
    rw [lexemes_append (s := ')') (by decide) ht, hparen]
  rw [parenthesized_append_openParen hk, hlex, insideGroup_lexemes ht hg, Option.map_some,
    flatMap_text_lexemes, Option.some_or]

/-- The middle clause is what stands between the two semicolons, after a space. -/
theorem forCondition?_clauses {text a c b : List Char}
    (h : Statement.parenthesized text = some (a ++ ';' :: ' ' :: (c ++ ';' :: b)))
    (ha : ';' ∉ a) (hc : ';' ∉ c) (hne : c ≠ []) (htrim : trim c = c) :
    Statement.forCondition? text = some c := by
  have hsplit : (a ++ ';' :: ' ' :: (c ++ ';' :: b)).splitOn ';' =
      a :: (' ' :: c) :: b.splitOn ';' := by
    rw [List.splitOn_append_cons_self_of_not_mem ha, ← List.cons_append,
      List.splitOn_append_cons_self_of_not_mem (by simp [hc])]
  have hspace : trim (' ' :: c) = c := by
    rw [← List.singleton_append, Text.trim_blank_append (by decide), htrim]
  simp only [Statement.forCondition?, h, Option.bind_eq_bind, Option.bind_some, hsplit,
    List.getElem?_cons_succ, List.getElem?_cons_zero, hspace]
  simp [hne]

/-! ## What calls print and read -/

theorem lexemes_string {inner : List Char} (h : ∀ c ∈ inner, c ≠ '"' ∧ c ≠ '\\')
    (rest : List Char) : lexemes ('"' :: (inner ++ '"' :: rest)) =
      ⟨.string, '"' :: (inner ++ ['"'])⟩ :: lexemes rest := by
  have hscan : Literal.scan (fun _ => false) '"' (inner ++ '"' :: rest) = (inner ++ ['"'], rest) :=
    Literal.scan_closed (fun c hc => ⟨(h c hc).1, (h c hc).2, rfl⟩) rest
  have hkind : Lexeme.kindAt '"' = .string := rfl
  rw [lexemes, Lexeme.first, hkind]
  simp only [Lexeme.extent, hscan]

theorem replacePair_of_not_mem {a b : Char} {replacement t : List Char} (h : a ∉ t) :
    Text.replacePair a b replacement t = t := by
  fun_induction Text.replacePair a b replacement t with
  | case1 => rfl
  | case2 => rfl
  | case3 c d cs hcd => exact absurd (hcd.1 ▸ List.mem_cons_self) h
  | case4 c d cs _ ih => rw [ih fun hm => h (List.mem_cons_of_mem _ hm)]

/-- A literal without escapes prints its trimmed text. -/
theorem printed_literal {inner : List Char} (h : '\\' ∉ inner) :
    Statement.printed ('"' :: (inner ++ ['"'])) = trim inner := by
  simp [Statement.printed, replacePair_of_not_mem h]

theorem outputText?_call {m : List Char} (hm : ∀ c ∈ m, c ≠ '"' ∧ c ≠ '\\') :
    Statement.outputText? ("printf".toList ++ '(' :: '"' :: (m ++ '"' :: [')', ';'])) =
      some (trim m) := by
  have hcall : lexemes "printf".toList = [⟨.word, "printf".toList⟩] := by decide +kernel
  have hquoted : Unquoted "printf".toList := .of_word (by decide)
  have hb : '\\' ∉ m := fun h => (hm _ h).2 rfl
  rw [Statement.outputText?, lexemes_append (by decide) hquoted, hcall, lexemes_openParen,
    lexemes_string hm]
  simp [printed_literal hb]

theorem inputTarget?_call {v : List Char} (hne : v ≠ []) (hv : ∀ c ∈ v, isWordChar c = true) :
    Statement.inputTarget? ("scanf".toList ++ '(' :: '"' ::
      (['%', 'd'] ++ '"' :: ',' :: ' ' :: '&' :: (v ++ [')', ';']))) = some v := by
  have hword : (v ++ [')', ';']).takeWhile isWordChar = v := (takeWhile_word hv (by simp; decide)).1
  have hargument : Statement.argument? (' ' :: '&' :: (v ++ [')', ';'])) = some v := by
    unfold Statement.argument?
    simp [hword, hne, -List.takeWhile_append_of_pos]
  have hcall : "scanf".toList = ['s', 'c', 'a', 'n', 'f'] := by simp
  rw [hcall]
  simp [Statement.inputTarget?, hargument]

theorem containsKeyword_return (e : List Char) :
    Statement.containsKeyword "return" ("return".toList ++ ' ' :: e) = true := by
  have hlex : lexemes "return".toList = [⟨.word, "return".toList⟩] := by decide +kernel
  have hquoted : Unquoted "return".toList := .of_word (by decide)
  rw [Statement.containsKeyword, lexemes_append (by decide) hquoted, hlex]
  simp

end Flowchart
