import Flowchart.Proofs.Code

/-!
# Lines of code are fragments

`isLine_of_mem_lines`: each line of valid code is one fragment by itself. A line begins with a word,
and what comes after it is plain pieces between punctuation (`PlainPieces`), strings aside.
-/

namespace Flowchart

open Text (isBlank isBlankText trim)

/-! ## Plain pieces -/

/-- The text has plain pieces only. -/
def PlainPieces (t : List Char) : Prop := ∀ p ∈ pieces false t, p.isPlain = true

/-- The characters that lines put between texts. -/
def punctuation : List Char := [' ', '(', ')', ';', ',', '&']

theorem isSeparator_of_mem_punctuation {s : Char} (h : s ∈ punctuation) :
    IsSeparator s ∧ s ∉ markers ∧ s ≠ '/' := by
  simp only [punctuation, List.mem_cons, List.not_mem_nil, or_false] at h
  rcases h with rfl | rfl | rfl | rfl | rfl | rfl <;>
    exact ⟨⟨by decide, by decide, by decide⟩, by decide, by decide⟩

theorem leftAtStart_plain {ps : List Piece} (h : ∀ p ∈ ps, p.isPlain = true) :
    leftAtStart false ps = false := by
  induction ps with
  | nil => rfl
  | cons p ps ih =>
    obtain ⟨hp, hps⟩ := List.forall_mem_cons.mp h
    have hleaves : p.leavesAtStart false = false := by
      cases hk : p.kind <;> simp_all [Piece.isPlain, Piece.leavesAtStart]
    rw [leftAtStart, List.foldl_cons, hleaves]
    exact ih hps

theorem pieces_punctuation {s : Char} (hs : s ∈ punctuation) (t : List Char) :
    pieces false (s :: t) = ⟨.symbol, [s]⟩ :: pieces false t := by
  obtain ⟨hsep, hm, hslash⟩ := isSeparator_of_mem_punctuation hs
  exact pieces_symbol hsep.not_word hm (fun h => absurd h hslash) (fun h => by cases h)

namespace PlainPieces

variable {a b : List Char} {s : Char}

theorem nil : PlainPieces [] := by simp [PlainPieces, pieces]

theorem append_cons (ha : PlainPieces a) (hs : s ∈ punctuation) (hb : PlainPieces b) :
    PlainPieces (a ++ s :: b) := by
  have hsep := (isSeparator_of_mem_punctuation hs).1
  have hends : ∀ p ∈ pieces false a, p.endsAt s = true := fun p hp =>
    Piece.endsAt_of_isPlain (ha p hp) s
  unfold PlainPieces
  rw [pieces_append hsep hends, leftAtStart_plain ha, pieces_punctuation hs]
  exact List.forall_mem_append.mpr ⟨ha, List.forall_mem_cons.mpr ⟨rfl, hb⟩⟩

theorem cons (hs : s ∈ punctuation) (hb : PlainPieces b) : PlainPieces (s :: b) :=
  nil.append_cons hs hb

theorem word (hne : a ≠ []) (ha : ∀ c ∈ a, isWordChar c = true) (helse : a ≠ "else".toList) :
    PlainPieces a := by
  have hpieces : pieces false (a ++ []) = ⟨.word, a⟩ :: pieces false [] :=
    pieces_word hne ha helse (by simp)
  rw [List.append_nil, pieces] at hpieces
  unfold PlainPieces
  rw [hpieces]
  simp [Piece.isPlain]

theorem inner (h : PlainPieces a) : ∀ p ∈ pieces false a, p.isInner = true ∧ p.kind ≠ .comment := by
  intro p hp
  have := h p hp
  cases hk : p.kind <;> simp_all [Piece.isPlain, Piece.isInner]

end PlainPieces

theorem PlainText.plainPieces {t : List Char} (h : PlainText t) : PlainPieces t :=
  isPlain_of_mem_pieces (fun c hc => (not_or.mp (List.mem_cons.not.mp (h.unmarked c hc))).2)
    h.not_line_comment h.not_block_comment h.not_else

/-! ## Lines -/

/-- A line begins with a word and does not end with white space. -/
theorem isLine_word_append {w t : List Char} {c : Char} (hne : w ≠ [])
    (hw : w.all isWordChar = true) (helse : w ≠ "else".toList) (hc : isWordChar c = false)
    (ht : ∀ p ∈ pieces false (c :: t), p.isInner = true ∧ p.kind ≠ .comment) {init : List Char}
    {e : Char} (hlast : c :: t = init ++ [e]) (he : isBlank e = false) : IsLine (w ++ c :: t) := by
  rw [List.all_eq_true] at hw
  obtain ⟨d, w, rfl⟩ := List.exists_cons_of_ne_nil hne
  have hinner : ∀ p ∈ pieces true (d :: w ++ c :: t), p.isInner = true ∧ p.kind ≠ .comment := by
    rw [pieces_word hne hw helse (by simpa using hc)]
    exact List.forall_mem_cons.mpr ⟨⟨rfl, by simp⟩, ht⟩
  refine isLine_of_inner hinner (by simp) (Text.trim_eq_self_iff.mpr ⟨?_, ?_⟩)
  · simpa using isBlank_of_isWordChar (hw d List.mem_cons_self)
  · rw [hlast, ← List.append_assoc, List.getLast?_concat]
    simpa using he

theorem isLine_headed {keyword : String} (hne : keyword.toList ≠ [])
    (hw : keyword.toList.all isWordChar = true) (helse : keyword.toList ≠ "else".toList)
    {inside : List Char} (h : PlainPieces inside) : IsLine (headed keyword inside) := by
  have hplain : PlainPieces (' ' :: '(' :: (inside ++ [')'])) :=
    .cons (by decide) (.cons (by decide) (h.append_cons (by decide) .nil))
  have hlast : ' ' :: '(' :: (inside ++ [')']) = (' ' :: '(' :: inside) ++ [')'] := rfl
  exact isLine_word_append hne hw helse (by decide) hplain.inner hlast (by decide)

/-- A string between plain pieces. -/
theorem inner_of_string {s : Char} (hs : s ∈ punctuation) {inside t : List Char}
    (hm : ∀ c ∈ inside, c ≠ '"' ∧ c ≠ '\\' ∧ c ≠ '\n') (ht : PlainPieces t) :
    ∀ p ∈ pieces false (s :: '"' :: (inside ++ '"' :: t)),
      p.isInner = true ∧ p.kind ≠ .comment := by
  rw [pieces_punctuation hs, pieces_string hm]
  simp only [List.forall_mem_cons]
  exact ⟨⟨rfl, by simp⟩, ⟨rfl, by simp⟩, ht.inner⟩

theorem isLine_simple {s : Simple} (h : s.Valid) : IsLine s.line := by
  cases s with
  | process text => exact isLine_of_texts_tokenize h.1
  | output message =>
    have hend : PlainPieces [')', ';'] := .cons (by decide) (.cons (by decide) .nil)
    have hlast : '(' :: '"' :: (message ++ '"' :: [')', ';']) =
        ('(' :: '"' :: (message ++ ['"', ')'])) ++ [';'] := by simp
    rw [Simple.line_output]
    exact isLine_word_append (by decide) (by decide) (by decide) (by decide)
      (inner_of_string (by decide) h.2.2 hend) hlast (by decide)
  | input target =>
    obtain ⟨hne, helse, hw⟩ := h
    have htarget : PlainPieces (target ++ [')', ';']) :=
      (PlainPieces.word hne hw helse).append_cons (by decide) (.cons (by decide) .nil)
    have hend : PlainPieces (',' :: ' ' :: '&' :: (target ++ [')', ';'])) :=
      .cons (by decide) (.cons (by decide) (.cons (by decide) htarget))
    have hlast : '(' :: '"' :: (['%', 'd'] ++ '"' :: ',' :: ' ' :: '&' :: (target ++ [')', ';'])) =
        ('(' :: '"' :: (['%', 'd'] ++ '"' :: ',' :: ' ' :: '&' :: (target ++ [')']))) ++ [';'] := by
      simp
    rw [Simple.line_input]
    exact isLine_word_append (by decide) (by decide) (by decide) (by decide)
      (inner_of_string (by decide) (by simp) hend) hlast (by decide)
  | stop value =>
    have hplain : PlainPieces (' ' :: (value ++ [';'])) :=
      .cons (by decide) (h.plainPieces.append_cons (by decide) .nil)
    have hlast : ' ' :: (value ++ [';']) = (' ' :: value) ++ [';'] := rfl
    rw [Simple.line_stop]
    exact isLine_word_append (by decide) (by decide) (by decide) (by decide) hplain.inner hlast
      (by decide)

theorem isLine_loop {h : LoopHeader} (hv : h.Valid) : IsLine h.line := by
  cases h with
  | whileTrue condition =>
    exact isLine_headed (by decide) (by decide) (by decide) hv.plainPieces
  | forClauses first condition next =>
    obtain ⟨hf, hc, hn, -, -⟩ := hv
    have hinside : PlainPieces (first ++ ';' :: ' ' :: (condition ++ ';' :: ' ' :: next)) := by
      refine hf.plainPieces.append_cons (by decide) (.cons (by decide) ?_)
      exact hc.plainPieces.append_cons (by decide) (.cons (by decide) hn.plainPieces)
    exact isLine_headed (by decide) (by decide) (by decide) hinside

theorem isLine_alone {line : List Char} (h : line = ['{'] ∨ line = ['}'] ∨ line = "else".toList) :
    IsLine line := by
  rcases h with rfl | rfl | rfl <;> exact ⟨by decide +kernel, by decide +kernel⟩

theorem isLine_of_mem_enclosed {lines : List (List Char)} (h : ∀ line ∈ lines, IsLine line) :
    ∀ line ∈ enclosed lines, IsLine line := by
  unfold enclosed
  simp only [List.forall_mem_cons, List.forall_mem_append]
  exact ⟨isLine_alone (.inl rfl), h, isLine_alone (.inr (.inl rfl)), by simp⟩

namespace Code

mutual

/-- Each line of a valid statement is one fragment by itself. -/
theorem isLine_of_mem_lines {c : Code} (h : c.Valid) : ∀ line ∈ c.lines, IsLine line := by
  cases c with
  | simple s =>
    rw [lines, List.forall_mem_singleton]
    exact isLine_simple h
  | loop header body =>
    rw [lines, List.forall_mem_cons]
    exact ⟨isLine_loop h.1, isLine_of_mem_enclosed (isLine_of_mem_linesAll h.2)⟩
  | ifThen condition whenTrue =>
    rw [lines, List.forall_mem_cons]
    exact ⟨isLine_headed (by decide) (by decide) (by decide) h.1.plainPieces,
      isLine_of_mem_enclosed (isLine_of_mem_linesAll h.2)⟩
  | ifElse condition whenTrue whenFalse =>
    rw [lines, List.forall_mem_cons, List.forall_mem_append, List.forall_mem_cons]
    exact ⟨isLine_headed (by decide) (by decide) (by decide) h.1.plainPieces,
      isLine_of_mem_enclosed (isLine_of_mem_linesAll h.2.1), isLine_alone (.inr (.inr rfl)),
      isLine_of_mem_enclosed (isLine_of_mem_linesAll h.2.2)⟩

/-- Each line of valid code is one fragment by itself. -/
theorem isLine_of_mem_linesAll {cs : List Code} (h : ValidAll cs) :
    ∀ line ∈ linesAll cs, IsLine line := by
  cases cs with
  | nil => simp [linesAll]
  | cons c cs =>
    rw [linesAll, List.forall_mem_append]
    exact ⟨isLine_of_mem_lines h.1, isLine_of_mem_linesAll h.2.1⟩

end

end Code

end Flowchart
