import Flowchart.Proofs.Pieces.Local

/-!
# Pieces of plain text

* `pieces_word`, `pieces_symbol`, `pieces_string`: the first piece of a text, where its characters
  tell what it is.
* `isPlain_of_mem_pieces`: text without quotes, braces, line breaks, comments and `else` is words
  and symbols.
-/

namespace Flowchart

open Text (isBlank isBlankText contains)

/-! ## First pieces -/

section First

variable {atStart : Bool} {rest : List Char}

/-- The characters with which a piece begins that is neither a word nor a symbol, slash and hash
sign left out. -/
def markers : List Char := ['\n', '{', '}', '"', '\'']

theorem not_mem_markers_of_isWordChar {c : Char} (h : isWordChar c = true) :
    c ∉ '#' :: '/' :: markers := by
  intro hm
  simp only [markers, List.mem_cons, List.not_mem_nil, or_false] at hm
  rcases hm with rfl | rfl | rfl | rfl | rfl | rfl | rfl <;> exact absurd h (by decide)

theorem takeWhile_word {w : List Char} (hw : ∀ c ∈ w, isWordChar c = true)
    (hrest : ∀ c ∈ rest.head?, isWordChar c = false) :
    (w ++ rest).takeWhile isWordChar = w ∧ (w ++ rest).dropWhile isWordChar = rest := by
  rw [List.takeWhile_append_of_pos hw, List.dropWhile_append_of_pos hw]
  cases rest with
  | nil => simp
  | cons c cs => simp [hrest c rfl]

theorem Piece.kindAt_word {c : Char} (hc : isWordChar c = true) (cs : List Char) :
    kindAt atStart c cs =
      if c :: cs.takeWhile isWordChar = "else".toList then .otherwise else .word := by
  have hm := not_mem_markers_of_isWordChar hc
  simp only [markers, List.mem_cons, List.not_mem_nil, or_false, not_or] at hm
  unfold kindAt
  rw [if_neg (by simp [hm]), if_neg (by simp [hm])]
  simp [hm, hc]

theorem pieces_word {w : List Char} (hne : w ≠ []) (hw : ∀ c ∈ w, isWordChar c = true)
    (helse : w ≠ "else".toList) (hrest : ∀ c ∈ rest.head?, isWordChar c = false) :
    pieces atStart (w ++ rest) = ⟨.word, w⟩ :: pieces false rest := by
  obtain ⟨c, w, rfl⟩ := List.exists_cons_of_ne_nil hne
  obtain ⟨hc, hw⟩ := List.forall_mem_cons.mp hw
  obtain ⟨htake, hdrop⟩ := takeWhile_word hw hrest
  have hkind : Piece.kindAt atStart c (w ++ rest) = .word := by
    rw [Piece.kindAt_word hc, htake, if_neg helse]
  have hfirst : Piece.first atStart c (w ++ rest) = (⟨.word, c :: w⟩, rest) := by
    rw [Piece.first, hkind]
    simp only [Piece.extent, htake, hdrop]
  have hblank : isBlankText (c :: w) = false := by
    simp [isBlankText, isBlank_of_isWordChar hc]
  rw [List.cons_append, pieces, hfirst]
  simp [Piece.leavesAtStart, hblank]

theorem pieces_symbol {c : Char} (hw : isWordChar c = false) (hm : c ∉ markers)
    (hcomment : c = '/' → rest.head? ≠ some '/' ∧ rest.head? ≠ some '*')
    (hstart : atStart = true → c ≠ '#') :
    pieces atStart (c :: rest) = ⟨.symbol, [c]⟩ :: pieces (atStart && isBlank c) rest := by
  simp only [markers, List.mem_cons, List.not_mem_nil, or_false, not_or] at hm
  have hkind : Piece.kindAt atStart c rest = .symbol := by
    unfold Piece.kindAt
    rw [if_neg (fun h => hstart h.1 h.2), if_neg (fun h => ?_)]
    · simp [hm, hw]
    · obtain ⟨h1, h2⟩ := hcomment h.1
      exact h.2.elim h1 h2
  rw [pieces, Piece.first, hkind]
  simp [Piece.extent, Piece.leavesAtStart, isBlankText]

theorem pieces_string {inner : List Char} (h : ∀ c ∈ inner, c ≠ '"' ∧ c ≠ '\\' ∧ c ≠ '\n') :
    pieces atStart ('"' :: (inner ++ '"' :: rest)) =
      ⟨.string, '"' :: (inner ++ ['"'])⟩ :: pieces false rest := by
  have hkind : Piece.kindAt atStart '"' (inner ++ '"' :: rest) = .string := by
    simp [Piece.kindAt]
  have hscan : Literal.scan (· == '\n') '"' (inner ++ '"' :: rest) = (inner ++ ['"'], rest) :=
    Literal.scan_closed (by simpa using h) rest
  have hquote : isBlank '"' = false := by decide
  rw [pieces, Piece.first, hkind]
  simp only [Piece.extent, hscan]
  simp [Piece.leavesAtStart, isBlankText, hquote]

end First

/-! ## Plain text -/

namespace Piece

/-- The piece is a word other than `else` or a symbol. -/
def isPlain (p : Piece) : Bool :=
  match p.kind with
  | .word | .symbol => true
  | _ => false

theorem endsAt_of_isPlain {p : Piece} (h : p.isPlain = true) (s : Char) : p.endsAt s = true := by
  cases hk : p.kind <;> simp_all [isPlain, endsAt]

end Piece

theorem contains_of_append {part a b : List Char} (h : contains part (a ++ b) = false) :
    contains part b = false := by
  induction a with
  | nil => exact h
  | cons c a ih =>
    rw [List.cons_append, contains, Bool.or_eq_false_iff] at h
    exact ih h.2

/-- The text begins with `c` and not with the pair `c d`. -/
theorem head?_ne_of_contains {c d : Char} {cs : List Char}
    (h : contains [c, d] (c :: cs) = false) : cs.head? ≠ some d := by
  intro hd
  obtain ⟨ds, rfl⟩ := List.head?_eq_some_iff.mp hd
  simp [contains, Text.startsWith] at h

/-- The parts of a text between characters that are no word characters. -/
def wordsIn (t : List Char) : List (List Char) := t.splitOnP (!isWordChar ·)

theorem wordsIn_append_cons {s : Char} (hs : isWordChar s = false) (a b : List Char) :
    wordsIn (a ++ s :: b) = wordsIn a ++ wordsIn b :=
  List.splitOnP_append_cons a b (by simp [hs])

theorem wordsIn_word {w : List Char} (hw : ∀ c ∈ w, isWordChar c = true) : wordsIn w = [w] :=
  List.splitOnP_eq_singleton (by simpa using hw)

/-- A word at the front of a text is one of its parts, the rest of the text has the others. -/
theorem mem_wordsIn_word_append {w rest : List Char} (hw : ∀ c ∈ w, isWordChar c = true)
    (hrest : ∀ c ∈ rest.head?, isWordChar c = false) {v : List Char} (hv : v ≠ []) :
    v ∈ wordsIn (w ++ rest) ↔ v = w ∨ v ∈ wordsIn rest := by
  cases rest with
  | nil => simp [wordsIn_word hw, wordsIn_word (w := []), hv]
  | cons s r =>
    have hs := hrest s rfl
    have hr : wordsIn (s :: r) = [] :: wordsIn r := wordsIn_append_cons hs [] r
    rw [wordsIn_append_cons hs, wordsIn_word hw, hr]
    simp [hv]

theorem exists_eq_word_append {c : Char} (hc : isWordChar c = true) (cs : List Char) :
    ∃ w rest, c :: cs = w ++ rest ∧ w ≠ [] ∧ (∀ d ∈ w, isWordChar d = true) ∧
      ∀ d ∈ rest.head?, isWordChar d = false := by
  refine ⟨(c :: cs).takeWhile isWordChar, (c :: cs).dropWhile isWordChar,
    List.takeWhile_append_dropWhile.symm, ?_, fun d hd => List.mem_takeWhile_imp hd,
    Text.of_mem_head?_dropWhile⟩
  simp [hc]

/-- Every piece of a text without marks is plain. The induction is on the length, since a word is
taken as a whole. -/
theorem isPlain_of_mem_pieces {t : List Char} (hm : ∀ c ∈ t, c ∉ markers)
    (hline : contains "//".toList t = false) (hblock : contains "/*".toList t = false)
    (helse : "else".toList ∉ wordsIn t) : ∀ p ∈ pieces false t, p.isPlain = true := by
  induction hn : t.length using Nat.strongRecOn generalizing t with
  | ind n ih =>
    cases t with
    | nil => simp [pieces]
    | cons c cs =>
      cases hc : isWordChar c with
      | false =>
        have hpair : c = '/' → cs.head? ≠ some '/' ∧ cs.head? ≠ some '*' := by
          rintro rfl
          exact ⟨head?_ne_of_contains hline, head?_ne_of_contains hblock⟩
        have hwords : wordsIn (c :: cs) = [] :: wordsIn cs := wordsIn_append_cons hc [] cs
        rw [hwords] at helse
        rw [pieces_symbol hc (hm c (by simp)) hpair (by simp)]
        refine List.forall_mem_cons.mpr ⟨rfl, ?_⟩
        refine ih cs.length (by simp [← hn]) (fun d hd => hm d (by simp [hd])) ?_ ?_ ?_ rfl
        · exact contains_of_append (a := [c]) hline
        · exact contains_of_append (a := [c]) hblock
        · exact fun h => helse (List.mem_cons_of_mem _ h)
      | true =>
        obtain ⟨w, rest, ht, hne, hw, hrest⟩ := exists_eq_word_append hc cs
        have hlen : 0 < w.length := List.length_pos_iff.mpr hne
        rw [ht] at hm hline hblock helse hn ⊢
        rw [mem_wordsIn_word_append hw hrest (by simp), not_or] at helse
        rw [pieces_word hne hw (Ne.symm helse.1) hrest]
        refine List.forall_mem_cons.mpr ⟨rfl, ?_⟩
        rw [List.length_append] at hn
        exact ih rest.length (by omega) (fun d hd => hm d (by simp [hd])) (contains_of_append hline)
          (contains_of_append hblock) helse.2 rfl

end Flowchart
