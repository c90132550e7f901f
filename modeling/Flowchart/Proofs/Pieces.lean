import Flowchart.Fragment
import Flowchart.Proofs.Text

/-!
# What pieces look like

* `Piece.Shaped`: the text that a piece has, by its kind. Only comments hold line breaks, besides
  line breaks themselves.
* `Scanned`: what holds along a list of pieces. A directive stands where a statement may begin, and
  no word stands right after another one, so each is a whole one. `scanned_pieces`: the pieces of a
  text are scanned.
-/

namespace Flowchart

theorem isBlank_of_isWordChar {c : Char} (h : isWordChar c = true) : Text.isBlank c = false := by
  delta isWordChar Char.isAlphanum Char.isAlpha Char.isUpper Char.isLower Char.isDigit at h
  simp only [Bool.or_eq_true, beq_iff_eq, Bool.and_eq_true, decide_eq_true_eq,
    UInt32.le_iff_toNat_le, ge_iff_le] at h
  rcases h with h | rfl
  · simp at h
    simp [Text.isBlank, Text.blankRanges]
    omega
  · decide

/-- A literal holds no character that would have stopped it. -/
theorem Literal.stop_of_mem_scan {stop : Char → Bool} {quote : Char} (hq : stop quote = false)
    (hb : stop '\\' = false) {cs : List Char} : ∀ c ∈ (scan stop quote cs).1, stop c = false := by
  fun_induction scan stop quote cs with
  | case1 | case3 | case4 | case6 => simp
  | case2 => simpa using hq
  | case5 d ds hd taken rest hs _ ih | case7 d ds _ _ hd taken rest hs ih =>
    rw [hs] at ih
    simpa [hb, hd] using ih

namespace Piece

/-- The piece is a run of word characters, `else` included. -/
def isWord (p : Piece) : Bool :=
  match p.kind with
  | .word | .otherwise => true
  | _ => false

/-- The text of a piece is one that its kind allows. -/
def Shaped (p : Piece) : Prop :=
  match p.kind with
  | .newline => p.text = ['\n']
  | .openBrace => p.text = ['{']
  | .closeBrace => p.text = ['}']
  | .otherwise => p.text = "else".toList
  | .word => p.text ≠ [] ∧ p.text ≠ "else".toList ∧ ∀ c ∈ p.text, isWordChar c = true
  | .symbol => ∃ c, p.text = [c] ∧ isWordChar c = false ∧ c ∉ ['\n', '{', '}', '"', '\'']
  | .string => ∃ t, p.text = '"' :: t ∧ '\n' ∉ t
  | .character => ∃ t, p.text = '\'' :: t ∧ '\n' ∉ t
  | .comment => ∃ d t, p.text = '/' :: d :: t
  | .directive => ∃ t, p.text = '#' :: t

theorem Shaped.text_ne_nil {p : Piece} (h : p.Shaped) : p.text ≠ [] := by
  obtain ⟨kind, text⟩ := p
  cases kind with
  | newline | openBrace | closeBrace | otherwise =>
    obtain rfl : text = _ := h
    decide
  | word => exact h.1
  | symbol =>
    obtain ⟨c, rfl, -⟩ := h
    exact List.cons_ne_nil _ _
  | string | character =>
    obtain ⟨t, rfl, -⟩ := h
    exact List.cons_ne_nil _ _
  | comment =>
    obtain ⟨d, t, rfl⟩ := h
    exact List.cons_ne_nil _ _
  | directive =>
    obtain ⟨t, rfl⟩ := h
    exact List.cons_ne_nil _ _

theorem newline_not_mem_literal {quote : Char} (h : quote ≠ '\n') (cs : List Char) :
    '\n' ∉ (Literal.scan (· == '\n') quote cs).1 := by
  intro hm
  have hstop : ∀ c ∈ (Literal.scan (· == '\n') quote cs).1, (c == '\n') = false :=
    Literal.stop_of_mem_scan (by simpa using h) (by decide)
  simpa using hstop _ hm

/-- A comment takes the second character of its opening. -/
theorem extent_comment {cs : List Char} (h : cs.head? = some '/' ∨ cs.head? = some '*') :
    ∃ d ds t, cs = d :: ds ∧ (extent .comment '/' cs).1 = d :: t := by
  cases cs with
  | nil => simp at h
  | cons d ds =>
    refine ⟨d, ds, ?_⟩
    rcases h with h | h
    · obtain rfl : d = '/' := by simpa using h
      exact ⟨_, rfl, rfl⟩
    · obtain rfl : d = '*' := by simpa using h
      exact ⟨_, rfl, rfl⟩

theorem shaped_first (atStart : Bool) (c : Char) (cs : List Char) :
    (first atStart c cs).1.Shaped := by
  show Shaped ⟨kindAt atStart c cs, c :: (extent (kindAt atStart c cs) c cs).1⟩
  fun_cases kindAt atStart c cs with
  | case1 h => exact ⟨_, by rw [h.2]⟩
  | case2 _ h =>
    obtain ⟨rfl, h⟩ := h
    obtain ⟨d, ds, t, rfl, ht⟩ := extent_comment h
    exact ⟨d, t, by rw [ht]⟩
  | case3 _ _ h => rw [h]; rfl
  | case4 _ _ _ h => rw [h]; rfl
  | case5 _ _ _ _ h => rw [h]; rfl
  | case6 _ _ _ _ _ h =>
    rw [h]
    exact ⟨_, rfl, newline_not_mem_literal (by decide) cs⟩
  | case7 _ _ _ _ _ _ h =>
    rw [h]
    exact ⟨_, rfl, newline_not_mem_literal (by decide) cs⟩
  | case8 _ _ _ _ _ _ _ _ h => exact h
  | case9 _ _ _ _ _ _ _ hw h =>
    refine ⟨List.cons_ne_nil _ _, h, fun d hd => ?_⟩
    rcases List.mem_cons.mp hd with rfl | hd
    · exact hw
    · exact List.mem_takeWhile_imp hd
  | case10 _ _ hn ho hc hs hq hw =>
    exact ⟨c, rfl, by simpa using hw, by simp [hn, ho, hc, hs, hq]⟩

theorem isWordChar_of_isWord_first {atStart : Bool} {c : Char} {cs : List Char}
    (h : (first atStart c cs).1.isWord = true) : isWordChar c = true := by
  replace h : isWord ⟨kindAt atStart c cs, _⟩ = true := h
  revert h
  fun_cases kindAt atStart c cs with
  | case8 _ _ _ _ _ _ _ hw | case9 _ _ _ _ _ _ _ hw => exact fun _ => hw
  | case1 | case2 | case3 | case4 | case5 | case6 | case7 | case10 => simp [isWord]

theorem atStart_of_kind_first {atStart : Bool} {c : Char} {cs : List Char}
    (h : (first atStart c cs).1.kind = .directive) : atStart = true := by
  replace h : kindAt atStart c cs = .directive := h
  revert h
  fun_cases kindAt atStart c cs with
  | case1 h => exact fun _ => h.1
  | case2 | case3 | case4 | case5 | case6 | case7 | case8 | case9 | case10 => simp

/-- A word reaches up to the first character that is not a word character. -/
theorem rest_of_isWord_first {atStart : Bool} {c : Char} {cs : List Char}
    (h : (first atStart c cs).1.isWord = true) :
    (first atStart c cs).2 = cs.dropWhile isWordChar := by
  replace h : isWord ⟨kindAt atStart c cs, _⟩ = true := h
  show (extent (kindAt atStart c cs) c cs).2 = _
  generalize kindAt atStart c cs = kind at h ⊢
  cases kind <;> simp_all [isWord, extent]

end Piece

/-- What holds along the pieces of a text, where `atStart` says that a statement may begin before
the first of them. -/
inductive Scanned : Bool → List Piece → Prop where
  | nil {atStart : Bool} : Scanned atStart []
  | cons {atStart : Bool} {p : Piece} {ps : List Piece} (shaped : p.Shaped)
      (start : p.kind = .directive → atStart = true)
      (apart : p.isWord = true → ∀ q ∈ ps.head?, q.isWord = false)
      (rest : Scanned (p.leavesAtStart atStart) ps) : Scanned atStart (p :: ps)

theorem scanned_pieces (atStart : Bool) (cs : List Char) : Scanned atStart (pieces atStart cs) := by
  fun_induction pieces atStart cs with
  | case1 => exact .nil
  | case2 atStart c cs p ih =>
    refine .cons (Piece.shaped_first ..) Piece.atStart_of_kind_first (fun hp q hq => ?_) ih
    have hrest := Piece.rest_of_isWord_first hp
    cases hd : (Piece.first atStart c cs).2 with
    | nil => simp [hd, pieces] at hq
    | cons d ds =>
      rw [hd, pieces, List.head?_cons, Option.mem_some_iff] at hq
      subst hq
      by_contra hw
      have hword := Piece.isWordChar_of_isWord_first (by simpa using hw)
      have hnot := List.head?_dropWhile_not isWordChar cs
      rw [← hrest, hd, List.head?_cons] at hnot
      exact absurd hword (by simp [hnot])

namespace Scanned

variable {atStart : Bool} {ps : List Piece}

theorem shaped_of_mem (h : Scanned atStart ps) : ∀ p ∈ ps, p.Shaped := by
  induction h with
  | nil => simp
  | cons shaped _ _ _ ih => exact List.forall_mem_cons.mpr ⟨shaped, ih⟩

/-- No word stands right after another one. -/
theorem isChain (h : Scanned atStart ps) :
    ps.IsChain fun p q => p.isWord = true → q.isWord = false := by
  induction h with
  | nil => exact .nil
  | @cons _ p ps _ _ apart _ ih =>
    cases ps with
    | nil => exact .singleton p
    | cons q ps => exact .cons_cons (fun hp => apart hp q rfl) ih

end Scanned

end Flowchart
