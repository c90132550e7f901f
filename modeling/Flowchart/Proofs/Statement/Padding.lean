import Flowchart.Proofs.Padding
import Flowchart.Proofs.Statement

/-!
# Statements with padding at the end

Semicolons and white space after a statement change neither its keywords nor its parentheses.

* `exists_lexemes_append`: the lexemes of a statement and of the statement with padding have the
  same front, and after it literals and symbols only.
* `startsWithKeyword_append`, `containsKeyword_append`, `parenthesized_append`,
  `forCondition?_append`, `inputTarget?_append`: what a statement says, with padding after it.
-/

namespace Flowchart

namespace Statement

variable {t w : List Char}

/-! ## Keywords at the start -/

/-- What begins with no word character completes no keyword. -/
theorem startsWithKeyword_append_of_head {keyword : String}
    (hk : keyword.toList.all isWordChar = true) (hnot : ∀ c ∈ w.head?, isWordChar c = false)
    (t : List Char) : startsWithKeyword keyword (t ++ w) = startsWithKeyword keyword t := by
  unfold startsWithKeyword
  generalize keyword.toList = k at hk
  induction k generalizing t with
  | nil =>
    cases t with
    | nil => cases w <;> simp_all [Text.startsWith]
    | cons d t => simp [Text.startsWith]
  | cons c k ih =>
    rw [List.all_cons, Bool.and_eq_true] at hk
    obtain ⟨hc, hk⟩ := hk
    cases t with
    | nil =>
      cases w with
      | nil => rfl
      | cons d w =>
        have hne : c ≠ d := by
          rintro rfl
          rw [hnot c rfl] at hc
          cases hc
        simp [Text.startsWith, hne]
    | cons d t =>
      have ht := ih t hk
      simp only [Text.startsWith] at ht ⊢
      simp only [List.cons_append, List.isPrefixOf_cons_cons, List.length_cons, List.drop_succ_cons,
        Bool.and_assoc, ht]

theorem startsWithKeyword_append {keyword : String}
    (hk : keyword.toList.all isWordChar = true) (hw : IsPadding w) (t : List Char) :
    startsWithKeyword keyword (t ++ w) = startsWithKeyword keyword t :=
  startsWithKeyword_append_of_head hk (fun c hc => hw.not_word c (List.mem_of_mem_head? hc)) t

theorem isDeclaration_append (hw : IsPadding w) (t : List Char) :
    isDeclaration (t ++ w) = isDeclaration t := by
  have hwords : ∀ k ∈ typeKeywords, k.toList.all isWordChar = true := by decide
  have hequals : (t ++ w).contains '=' = t.contains '=' := by
    have hnot : '=' ∉ w := hw.not_mem (by decide) (by decide)
    simp [hnot]
  have hany : typeKeywords.any (startsWithKeyword · (t ++ w)) =
      typeKeywords.any (startsWithKeyword · t) := by
    rw [Bool.eq_iff_iff, List.any_eq_true, List.any_eq_true]
    refine exists_congr fun k => and_congr_right fun hk => ?_
    rw [startsWithKeyword_append (hwords k hk) hw]
  rw [isDeclaration, isDeclaration, hany, hequals]

/-! ## Lexemes -/

/-- The lexeme is a literal or a symbol. -/
def IsFlat (l : Lexeme) : Prop := l.kind ≠ .word ∧ l.kind ≠ .openParen ∧ l.kind ≠ .closeParen

theorem isFlat_of_mem_padding (hw : IsPadding w) : ∀ l ∈ lexemes w, IsFlat l := by
  induction w with
  | nil => simp [lexemes]
  | cons c w ih =>
    have hc : c ∈ c :: w := List.mem_cons_self
    have hne {d : Char} (hd : d ≠ ';') (hb : Text.isBlank d = false) : c ≠ d :=
      ne_of_mem_of_not_mem hc (hw.not_mem hd hb)
    rw [lexemes_symbol ⟨hne (by decide) (by decide), hne (by decide) (by decide)⟩
      ⟨hne (by decide) (by decide), hne (by decide) (by decide)⟩ (hw.not_word c hc)]
    exact List.forall_mem_cons.mpr ⟨by simp [IsFlat], ih (List.forall_mem_cons.mp hw).2⟩

/-- A literal that waits for its end, with padding after it. -/
theorem isFlat_of_waits {quote : Char} (hq : quote = '"' ∨ quote = '\'')
    (ht : Literal.Waits (fun _ => false) quote t) (hw : IsPadding w) :
    ∀ l ∈ lexemes (quote :: (t ++ w)), IsFlat l := by
  have hquote : '\\' ≠ quote := by rcases hq with rfl | rfl <;> decide
  have hplain : ∀ c ∈ w, c ≠ quote ∧ c ≠ '\\' ∧ false = false := fun c hc =>
    ⟨(hw.plain hq c hc).1, (hw.plain hq c hc).2, rfl⟩
  have hbackslash : lexemes ['\\'] = [⟨.symbol, ['\\']⟩] := by decide +kernel
  have hrest : ∀ l ∈ lexemes (Literal.scan (fun _ => false) quote (t ++ w)).2, IsFlat l := by
    rcases ht.scan_append_plain hquote hplain with h | h
    · simp [h, lexemes]
    · simp [h, hbackslash, IsFlat]
  rw [lexemes, Lexeme.first]
  rcases hq with rfl | rfl
  · exact List.forall_mem_cons.mpr ⟨by simp [IsFlat, Lexeme.kindAt], hrest⟩
  · exact List.forall_mem_cons.mpr ⟨by simp [IsFlat, Lexeme.kindAt], hrest⟩

/-- Padding changes the lexemes at the end only, where they are literals and symbols. -/
theorem exists_lexemes_append (hw : IsPadding w) (t : List Char) :
    ∃ front as bs, lexemes t = front ++ as ∧ lexemes (t ++ w) = front ++ bs ∧
      (∀ l ∈ as, IsFlat l) ∧ ∀ l ∈ bs, IsFlat l := by
  fun_induction lexemes t with
  | case1 => exact ⟨[], [], lexemes w, rfl, rfl, by simp, isFlat_of_mem_padding hw⟩
  | case2 c cs ih =>
    -- The first lexeme is in front, unless it is a literal that takes all of the text.
    have hfront (h : Lexeme.first c (cs ++ w) =
        ((Lexeme.first c cs).1, (Lexeme.first c cs).2 ++ w)) : ∃ front as bs,
        (Lexeme.first c cs).1 :: lexemes (Lexeme.first c cs).2 = front ++ as ∧
        lexemes (c :: cs ++ w) = front ++ bs ∧ (∀ l ∈ as, IsFlat l) ∧ ∀ l ∈ bs, IsFlat l := by
      obtain ⟨front, as, bs, has, hbs, hflat⟩ := ih
      refine ⟨(Lexeme.first c cs).1 :: front, as, bs, by rw [has]; rfl, ?_, hflat⟩
      rw [List.cons_append, lexemes, h, hbs]
      rfl
    by_cases hc : c = '"' ∨ c = '\''
    · rcases Literal.scan_append_or_waits (fun _ => false) c cs with h | h
      · refine hfront ?_
        rcases hc with rfl | rfl
        · simp [Lexeme.first, Lexeme.kindAt, Lexeme.extent, h]
        · simp [Lexeme.first, Lexeme.kindAt, Lexeme.extent, h]
      · have hnil := isFlat_of_waits hc h .nil
        rw [List.append_nil, lexemes] at hnil
        exact ⟨[], _, _, rfl, rfl, hnil, isFlat_of_waits hc h hw⟩
    · refine hfront ?_
      cases w with
      | nil => simp
      | cons s w =>
        exact Lexeme.first_append_separator (hw.not_word s List.mem_cons_self) (not_or.mp hc) cs w

theorem containsKeyword_append (hw : IsPadding w) (keyword : String) (t : List Char) :
    containsKeyword keyword (t ++ w) = containsKeyword keyword t := by
  obtain ⟨front, as, bs, ht, htw, has, hbs⟩ := exists_lexemes_append hw t
  have hnot {ls : List Lexeme} (h : ∀ l ∈ ls, IsFlat l) :
      ls.contains ⟨.word, keyword.toList⟩ = false := by
    simpa using fun hm => (h _ hm).1 rfl
  rw [containsKeyword, containsKeyword, ht, htw, List.contains_append, List.contains_append,
    hnot has, hnot hbs]

/-! ## Parentheses -/

/-- No group is closed by literals and symbols. -/
theorem insideGroup_of_flat {ls : List Lexeme} (h : ∀ l ∈ ls, IsFlat l) (depth : Nat) :
    insideGroup depth ls = none := by
  induction ls with
  | nil => rfl
  | cons l ls ih =>
    obtain ⟨⟨-, ho, hc⟩, hls⟩ := List.forall_mem_cons.mp h
    obtain ⟨kind, text⟩ := l
    rw [insideGroup_flat _ _ _ ho hc, ih hls]
    rfl

theorem insideGroup_append {front as bs : List Lexeme} (has : ∀ l ∈ as, IsFlat l)
    (hbs : ∀ l ∈ bs, IsFlat l) (depth : Nat) :
    insideGroup depth (front ++ as) = insideGroup depth (front ++ bs) := by
  induction front generalizing depth with
  | nil => simp only [List.nil_append, insideGroup_of_flat has, insideGroup_of_flat hbs]
  | cons l front ih =>
    rw [List.cons_append, List.cons_append]
    rcases insideGroup_cons depth l with ⟨-, -, hstop⟩ | ⟨m, -, hpass⟩
    · rw [hstop, hstop]
    · rw [hpass, hpass, ih]

theorem parenthesized_append (hw : IsPadding w) (t : List Char) :
    parenthesized (t ++ w) = parenthesized t := by
  have hopen : '(' ∉ w := hw.not_mem (by decide) (by decide)
  have hclose : ')' ∉ w := hw.not_mem (by decide) (by decide)
  by_cases h : '(' ∈ t
  · obtain ⟨a, b, rfl, ha⟩ := List.eq_append_cons_of_mem h
    obtain ⟨front, as, bs, hb, hbw, has, hbs⟩ := exists_lexemes_append hw b
    rw [List.append_assoc, List.cons_append, parenthesized_append_openParen ha,
      parenthesized_append_openParen ha, beforeLast?_append hclose, hb, hbw,
      insideGroup_append hbs has]
  · rw [parenthesized_of_not_mem h, parenthesized_of_not_mem (by simp [h, hopen])]

theorem forCondition?_append (hw : IsPadding w) (t : List Char) :
    forCondition? (t ++ w) = forCondition? t := by
  rw [forCondition?, forCondition?, parenthesized_append hw]

/-! ## Calls -/

theorem takeWhile_word_append (hw : IsPadding w) (t : List Char) :
    (t ++ w).takeWhile isWordChar = t.takeWhile isWordChar := by
  cases w with
  | nil => rw [List.append_nil]
  | cons s w => exact takeWhile_append_stop (hw.not_word s List.mem_cons_self) t w

theorem argument?_append (hw : IsPadding w) (t : List Char) : argument? (t ++ w) = argument? t := by
  unfold argument?
  generalize hp : (fun c => c == ' ' || c == '\t' || c == '\r' || c == '\n') = p
  cases ht : t.dropWhile p with
  | nil =>
    have hrest : IsPadding (w.dropWhile p) := fun c hc => hw c ((List.dropWhile_suffix p).subset hc)
    have hhead : (w.dropWhile p).head? ≠ some '&' := fun h =>
      hrest.not_mem (by decide) (by decide) (List.mem_of_mem_head? h)
    have hword := takeWhile_word_append hrest []
    rw [List.nil_append] at hword
    simp [List.dropWhile_append, ht, hhead, hword]
  | cons d r =>
    have hcons := takeWhile_word_append hw (d :: r)
    rw [List.cons_append] at hcons
    by_cases hd : d = '&'
    · simp [List.dropWhile_append, ht, hd, takeWhile_word_append hw]
    · simp [List.dropWhile_append, ht, hd, hcons]

theorem inputTarget?_of_not_mem (h : ',' ∉ t) : inputTarget? t = none := by
  induction t with
  | nil => rfl
  | cons c t ih =>
    obtain ⟨hc, ht⟩ := not_or.mp (List.mem_cons.not.mp h)
    rw [inputTarget?, if_neg fun h => hc h.symm, ih ht]

theorem inputTarget?_append (hw : IsPadding w) (t : List Char) :
    inputTarget? (t ++ w) = inputTarget? t := by
  induction t with
  | nil => exact inputTarget?_of_not_mem (hw.not_mem (by decide) (by decide))
  | cons c t ih => rw [List.cons_append, inputTarget?, inputTarget?, argument?_append hw, ih]

end Statement

end Flowchart
