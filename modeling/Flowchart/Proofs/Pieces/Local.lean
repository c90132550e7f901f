import Flowchart.Proofs.Pieces

/-!
# Pieces are local

The pieces of a text do not depend on what comes after a separator, where the piece before the
separator ends there by itself.

* `Piece.endsAt`: which pieces end at a separator. A line break ends all but comments.
* `pieces_append`: the pieces of the text up to the separator, and then those from it on.
-/

namespace Flowchart

/-- A character that neither continues a word nor makes a slash before it begin a comment. -/
structure IsSeparator (s : Char) : Prop where
  not_word : isWordChar s = false
  not_slash : s ≠ '/'
  not_star : s ≠ '*'

theorem takeWhile_append_stop {p : Char → Bool} {s : Char} (hs : p s = false)
    (cs ds : List Char) : (cs ++ s :: ds).takeWhile p = cs.takeWhile p := by
  induction cs with
  | nil => simp [hs]
  | cons c cs ih => cases h : p c <;> simp [h, ih]

theorem dropWhile_append_stop {p : Char → Bool} {s : Char} (hs : p s = false)
    (cs ds : List Char) : (cs ++ s :: ds).dropWhile p = cs.dropWhile p ++ s :: ds := by
  induction cs with
  | nil => simp [hs]
  | cons c cs ih => cases h : p c <;> simp [h, ih]

namespace Literal

/-- A literal that ends at line breaks does not reach beyond one. -/
theorem scan_append_newline {quote : Char} (hq : quote ≠ '\n') (cs ds : List Char) :
    scan (· == '\n') quote (cs ++ '\n' :: ds) =
      ((scan (· == '\n') quote cs).1, (scan (· == '\n') quote cs).2 ++ '\n' :: ds) := by
  fun_induction scan (· == '\n') quote cs with
  | case1 =>
    rw [List.nil_append, scan.eq_def]
    simp [hq.symm]
  | case2 cs =>
    rw [List.cons_append, scan.eq_def]
    simp
  | case3 h =>
    rw [List.cons_append, scan.eq_def]
    simp [h]
  | case4 d es hd h =>
    rw [List.cons_append, scan.eq_def]
    simp [h, hd]
  | case5 d es hd taken rest hs h ih =>
    rw [hs] at ih
    rw [List.cons_append, scan.eq_def]
    simp [h, hd, ih]
  | case6 c cs hq' hb hstop =>
    rw [List.cons_append, scan.eq_def]
    simp [hq', hb, hstop]
  | case7 c cs hq' hb hstop taken rest hs ih =>
    rw [hs] at ih
    rw [List.cons_append, scan.eq_def]
    simp [hq', hb, hstop, ih]

/-- A literal without a quote, a backslash or a stop inside ends at its closing quote. -/
theorem scan_closed {stop : Char → Bool} {quote : Char} {inner : List Char}
    (h : ∀ c ∈ inner, c ≠ quote ∧ c ≠ '\\' ∧ stop c = false) (rest : List Char) :
    scan stop quote (inner ++ quote :: rest) = (inner ++ [quote], rest) := by
  induction inner with
  | nil =>
    rw [List.nil_append, scan.eq_def]
    simp
  | cons c inner ih =>
    obtain ⟨⟨hq, hb, hs⟩, hinner⟩ := List.forall_mem_cons.mp h
    rw [List.cons_append, scan.eq_def]
    simp [hq, hb, hs, ih hinner]

end Literal

namespace Piece

/-- The piece ends before the separator `s` whatever comes after it. -/
def endsAt (s : Char) (p : Piece) : Bool :=
  match p.kind with
  | .comment => false
  | .string | .character | .directive => s == '\n'
  | .word | .symbol | .newline | .openBrace | .closeBrace | .otherwise => true

variable {s : Char} {atStart : Bool} {c : Char} {cs ds : List Char}

theorem of_kindAt_directive (h : kindAt atStart c cs = .directive) : atStart = true ∧ c = '#' := by
  unfold kindAt at h
  grind

theorem of_kindAt_comment (h : kindAt atStart c cs = .comment) :
    c = '/' ∧ (cs.head? = some '/' ∨ cs.head? = some '*') := by
  unfold kindAt at h
  grind

theorem of_kindAt_literal (h : kindAt atStart c cs = .string ∨ kindAt atStart c cs = .character) :
    c = '"' ∨ c = '\'' := by
  unfold kindAt at h
  grind

theorem kindAt_append (hs : IsSeparator s) :
    kindAt atStart c (cs ++ s :: ds) = kindAt atStart c cs := by
  have hhead : ((cs ++ s :: ds).head? = some '/' ∨ (cs ++ s :: ds).head? = some '*') ↔
      (cs.head? = some '/' ∨ cs.head? = some '*') := by
    cases cs with
    | nil => simp [hs.not_slash, hs.not_star]
    | cons d cs => rfl
  simp only [kindAt, hhead, takeWhile_append_stop hs.not_word]

theorem extent_append_separator (hs : IsSeparator s) {kind : PieceKind} {t : List Char}
    (hc : kind = .string ∨ kind = .character → c ≠ '\n')
    (h : endsAt s ⟨kind, t⟩ = true) :
    extent kind c (cs ++ s :: ds) = ((extent kind c cs).1, (extent kind c cs).2 ++ s :: ds) := by
  cases kind with
  | string | character =>
    obtain rfl : s = '\n' := by simpa [endsAt] using h
    exact Literal.scan_append_newline (hc (by simp)) cs ds
  | word | otherwise =>
    simp only [extent, takeWhile_append_stop hs.not_word, dropWhile_append_stop hs.not_word]
  | directive =>
    obtain rfl : s = '\n' := by simpa [endsAt] using h
    have hnl : ('\n' != '\n') = false := by decide
    simp only [extent, takeWhile_append_stop (p := (· != '\n')) hnl,
      dropWhile_append_stop (p := (· != '\n')) hnl]
  | comment => cases h
  | newline | openBrace | closeBrace | symbol => rfl

theorem first_append_separator (hs : IsSeparator s) (h : (first atStart c cs).1.endsAt s = true) :
    first atStart c (cs ++ s :: ds) =
      ((first atStart c cs).1, (first atStart c cs).2 ++ s :: ds) := by
  have hc : kindAt atStart c cs = .string ∨ kindAt atStart c cs = .character → c ≠ '\n' := by
    rintro hk rfl
    cases atStart <;> simp [kindAt] at hk
  have hext : extent (kindAt atStart c cs) c (cs ++ s :: ds) =
      ((extent (kindAt atStart c cs) c cs).1, (extent (kindAt atStart c cs) c cs).2 ++ s :: ds) :=
    extent_append_separator hs hc h
  simp only [first, kindAt_append hs, hext]

end Piece

/-- Whether a statement may begin after the pieces. -/
def leftAtStart (atStart : Bool) (ps : List Piece) : Bool := ps.foldl Piece.leavesAtStart atStart

theorem pieces_append {s : Char} (hs : IsSeparator s) {atStart : Bool} {cs : List Char}
    (h : ∀ p ∈ pieces atStart cs, p.endsAt s = true) (ds : List Char) :
    pieces atStart (cs ++ s :: ds) =
      pieces atStart cs ++ pieces (leftAtStart atStart (pieces atStart cs)) (s :: ds) := by
  fun_induction pieces atStart cs with
  | case1 => rfl
  | case2 atStart c cs p ih =>
    obtain ⟨hp, hrest⟩ := List.forall_mem_cons.mp h
    rw [List.cons_append, pieces, Piece.first_append_separator hs hp]
    exact congrArg _ (ih hrest)

/-! ## Line breaks -/

theorem isSeparator_newline : IsSeparator '\n' := ⟨by decide, by decide, by decide⟩

theorem Piece.endsAt_newline {p : Piece} (h : p.kind ≠ .comment) : p.endsAt '\n' = true := by
  cases hk : p.kind <;> simp_all [endsAt]

theorem pieces_newline (atStart : Bool) (z : List Char) :
    pieces atStart ('\n' :: z) = ⟨.newline, ['\n']⟩ :: pieces true z := by
  rw [pieces]
  simp [Piece.first, Piece.kindAt, Piece.extent, Piece.leavesAtStart]

/-- A line break cuts the pieces in two, unless a comment reaches over it. -/
theorem pieces_append_newline {atStart : Bool} {cs : List Char}
    (h : ∀ p ∈ pieces atStart cs, p.kind ≠ .comment) (ds : List Char) :
    pieces atStart (cs ++ '\n' :: ds) =
      pieces atStart cs ++ ⟨.newline, ['\n']⟩ :: pieces true ds := by
  rw [pieces_append isSeparator_newline fun p hp => Piece.endsAt_newline (h p hp), pieces_newline]

end Flowchart
