import Flowchart.Lexeme
import Flowchart.Proofs.Fragment.Rescan

/-!
# Two scanners

`map_cut_inlinePieces`: cut into pieces or into lexemes, the text of a fragment falls into the same
parts. Either scanner takes the same of them for literals and words, and there is no comment for
either.

* `Cut`: a part of a text, with what both scanners tell apart.
* `cut_first`: the first piece and the first lexeme of a text are one part, unless the text begins
  with a comment. The scanners differ in where an unterminated literal ends, but no fragment has a
  line break.
* `OpensComment`: two parts that would be a comment, one after the other.
-/

namespace Flowchart

/-! ## Parts of a text -/

/-- What both scanners tell apart in the text of a statement. -/
inductive CutKind where
  /-- A literal in double quotes. -/
  | string
  /-- A literal in single quotes. -/
  | character
  /-- A run of word characters. -/
  | word
  /-- Anything else. -/
  | other
deriving DecidableEq, Repr

/-- A part that is cut off the text of a statement. -/
structure Cut where
  kind : CutKind
  text : List Char
deriving DecidableEq, Repr

/-- The word `else` is a word. -/
def PieceKind.cut : PieceKind → CutKind
  | .string => .string
  | .character => .character
  | .word | .otherwise => .word
  | .symbol | .comment | .directive | .newline | .openBrace | .closeBrace => .other

def LexemeKind.cut : LexemeKind → CutKind
  | .string => .string
  | .character => .character
  | .word => .word
  | .openParen | .closeParen | .symbol => .other

/-- The part that a piece is. -/
def Piece.cut (p : Piece) : Cut := ⟨p.kind.cut, p.text⟩

/-- The part that a lexeme is. -/
def Lexeme.cut (l : Lexeme) : Cut := ⟨l.kind.cut, l.text⟩

/-- The text `a` and the beginning of the text `b` after it would open a comment. -/
def OpensComment (a b : List Char) : Prop :=
  a = ['/'] ∧ (b.head? = some '/' ∨ b.head? = some '*')

/-! ## The first part -/

section First

variable {c : Char} {cs : List Char}

/-- The first piece is the first lexeme, unless it is a comment. -/
theorem cut_first (hn : '\n' ∉ c :: cs) (hk : (Piece.first false c cs).1.kind ≠ .comment) :
    (Piece.first false c cs).1.cut = (Lexeme.first c cs).1.cut ∧
      (Piece.first false c cs).2 = (Lexeme.first c cs).2 := by
  have hscan : Literal.scan (· == '\n') c cs = Literal.scan (fun _ => false) c cs := by
    refine Literal.scan_congr fun d hd => ?_
    simp only [beq_eq_false_iff_ne]
    rintro rfl
    exact hn (List.mem_cons_of_mem _ hd)
  replace hk : Piece.kindAt false c cs ≠ .comment := hk
  revert hk
  rw [Piece.first]
  fun_cases Piece.kindAt false c cs with
  | case1 h => cases h.1
  | case2 => simp
  | case3 _ _ h => exact absurd List.mem_cons_self (h ▸ hn)
  | case4 _ _ _ h | case5 _ _ _ _ h =>
    subst h
    exact fun _ => ⟨rfl, rfl⟩
  | case6 _ _ _ _ _ h | case7 _ _ _ _ _ _ h =>
    subst h
    refine fun _ => ⟨?_, ?_⟩ <;>
      simp [Piece.extent, Piece.cut, PieceKind.cut, Lexeme.first, Lexeme.kindAt, Lexeme.extent,
        Lexeme.cut, LexemeKind.cut, hscan]
  | case8 _ _ _ _ _ hs hq hw | case9 _ _ _ _ _ hs hq hw =>
    refine fun _ => ⟨?_, ?_⟩ <;>
      simp [Piece.extent, Piece.cut, PieceKind.cut, Lexeme.first, Lexeme.kindAt, Lexeme.extent,
        Lexeme.cut, LexemeKind.cut, hs, hq, hw]
  | case10 _ _ _ _ _ hs hq hw =>
    intro _
    -- Only lexemes tell parentheses from other symbols.
    have hkind : Lexeme.extent (Lexeme.kindAt c) c cs = ([], cs) ∧
        (Lexeme.kindAt c).cut = .other := by
      unfold Lexeme.kindAt
      rw [if_neg hs, if_neg hq, if_neg hw]
      split_ifs <;> exact ⟨rfl, rfl⟩
    simp only [Piece.extent, Piece.cut, PieceKind.cut, Lexeme.first, Lexeme.cut, hkind, and_self]

/-- What comes after a slash that is not a comment. -/
theorem not_opensComment_of_first (hk : (Piece.first false c cs).1.kind ≠ .comment) :
    ∀ d ∈ (Piece.first false c cs).2.head?, ∀ t,
      ¬OpensComment (Piece.first false c cs).1.text (d :: t) := by
  rintro d hd t ⟨hslash, hnext⟩
  have happend := Piece.first_append false c cs
  rw [hslash, List.singleton_append] at happend
  obtain ⟨rfl, hrest⟩ := List.cons.inj happend
  rw [hrest] at hd
  replace hnext : cs.head? = some '/' ∨ cs.head? = some '*' := by rwa [hd]
  replace hk : Piece.kindAt false '/' cs ≠ .comment := hk
  exact hk (by simp [Piece.kindAt, hnext])

end First

/-! ## All parts -/

/-- The pieces of a text that stands inside a statement, where no directive begins. -/
def inlinePieces : List Char → List Piece
  | [] => []
  | c :: cs => (Piece.first false c cs).1 :: inlinePieces (Piece.first false c cs).2
termination_by cs => cs.length
decreasing_by exact Piece.length_first_lt false c cs

variable {t : List Char}

/-- A text without line breaks, in which no piece is a comment, has the same parts for both
scanners. -/
theorem map_cut_eq (hn : '\n' ∉ t) (hk : ∀ p ∈ inlinePieces t, p.kind ≠ .comment) :
    (inlinePieces t).map Piece.cut = (lexemes t).map Lexeme.cut := by
  fun_induction inlinePieces t with
  | case1 =>
    rw [lexemes]
    rfl
  | case2 c cs ih =>
    obtain ⟨hfirst, hrest⟩ := List.forall_mem_cons.mp hk
    obtain ⟨hcut, hleft⟩ := cut_first hn hfirst
    have hn' : '\n' ∉ (Piece.first false c cs).2 := by
      rw [← Piece.first_append false c cs] at hn
      exact fun h => hn (List.mem_append_right _ h)
    rw [lexemes, List.map_cons, List.map_cons, hcut, ih hn' hrest, hleft]

/-- Where no piece is a comment no two neighbours would be one. -/
theorem isChain_inlinePieces (hk : ∀ p ∈ inlinePieces t, p.kind ≠ .comment) :
    ((inlinePieces t).map Piece.text).IsChain fun a b => ¬OpensComment a b := by
  fun_induction inlinePieces t with
  | case1 => exact .nil
  | case2 c cs ih =>
    obtain ⟨hfirst, hrest⟩ := List.forall_mem_cons.mp hk
    have ih := ih hrest
    rw [List.map_cons]
    cases hleft : (Piece.first false c cs).2 with
    | nil =>
      rw [inlinePieces]
      exact .singleton _
    | cons d ds =>
      rw [hleft] at ih
      rw [inlinePieces, List.map_cons] at ih ⊢
      exact .cons_cons (not_opensComment_of_first hfirst d (by rw [hleft]; rfl) _) ih

/-! ## The text of a fragment -/

theorem InnerText.newline_not_mem {atStart : Bool} (h : InnerText atStart t) : '\n' ∉ t := by
  rw [← flatMap_text_pieces atStart t]
  intro hm
  obtain ⟨p, hp, hm⟩ := List.mem_flatMap.mp hm
  have hs := (scanned_pieces atStart t).shaped_of_mem p hp
  exact Piece.newline_not_mem hs (h p hp).1 (h p hp).2 hm

/-- Inside a statement no directive begins. -/
theorem InnerText.inlinePieces_eq (h : InnerText false t) : inlinePieces t = pieces false t := by
  fun_induction inlinePieces t with
  | case1 => rw [pieces]
  | case2 c cs ih =>
    unfold InnerText at h
    rw [pieces, List.forall_mem_cons] at h
    have hleaves : (Piece.first false c cs).1.leavesAtStart false = false :=
      Piece.leavesAtStart_inner h.1.1
    rw [hleaves] at h
    rw [pieces, hleaves, ih h.2]

theorem inlinePieces_of_standsAlone {p : Piece} (hs : p.Shaped) (hp : p.standsAlone = true) :
    inlinePieces p.text = [p] := by
  rcases Piece.eq_of_standsAlone hs hp with rfl | rfl | rfl <;> decide +kernel

/-- **Two scanners.** Pieces and lexemes cut the text of a fragment into the same parts, of which
both take the same for literals and words. No piece is a comment, and no lexeme opens one with the
next. -/
theorem map_cut_inlinePieces {source : List Char} {f : Fragment} (hf : f ∈ tokenize source) :
    (inlinePieces f.text).map Piece.cut = (lexemes f.text).map Lexeme.cut ∧
    (∀ p ∈ inlinePieces f.text, p.kind ≠ .comment) ∧
    ((lexemes f.text).map Lexeme.text).IsChain fun a b => ¬OpensComment a b := by
  have hplain : '\n' ∉ f.text ∧ ∀ p ∈ inlinePieces f.text, p.kind ≠ .comment := by
    rcases standsAlone_or_innerText hf with ⟨p, hs, hp, htext⟩ | ⟨-, -, hinner⟩
    · rw [htext, inlinePieces_of_standsAlone hs hp]
      rcases Piece.eq_of_standsAlone hs hp with rfl | rfl | rfl <;> decide
    · rw [(hinner false).inlinePieces_eq]
      exact ⟨(hinner false).newline_not_mem, fun p hp => (hinner false p hp).2⟩
  have hcut := map_cut_eq hplain.1 hplain.2
  have htexts : (inlinePieces f.text).map Piece.text = (lexemes f.text).map Lexeme.text := by
    have := congrArg (List.map Cut.text) hcut
    rwa [List.map_map, List.map_map] at this
  exact ⟨hcut, hplain.2, htexts ▸ isChain_inlinePieces hplain.2⟩

/-- A statement with a string that looks like a comment, a comment, and a literal that its line
ends. -/
theorem map_cut_inlinePieces_literals :
    let source := "else\ns = \"a//\" / /* two */ 'b\\'; // else\n".toList
    let text := "s = \"a//\" /   'b\\'; // else".toList
    (texts (tokenize source) = ["else".toList, text]) ∧
    (inlinePieces text).map Piece.cut = [
      ⟨.word, "s".toList⟩, ⟨.other, " ".toList⟩, ⟨.other, "=".toList⟩, ⟨.other, " ".toList⟩,
      ⟨.string, "\"a//\"".toList⟩, ⟨.other, " ".toList⟩, ⟨.other, "/".toList⟩,
      ⟨.other, " ".toList⟩, ⟨.other, " ".toList⟩, ⟨.other, " ".toList⟩,
      ⟨.character, "'b\\'; // else".toList⟩] ∧
    ∀ p ∈ inlinePieces text, p.kind ≠ .comment := by
  intro source text
  have htexts : texts (tokenize source) = ["else".toList, text] := by decide +kernel
  have hmem : text ∈ texts (tokenize source) := by simp [htexts]
  obtain ⟨f, hf, htext⟩ := List.mem_map.mp hmem
  obtain ⟨hcut, hcomment, -⟩ := map_cut_inlinePieces hf
  rw [htext] at hcut hcomment
  exact ⟨htexts, hcut.trans (by decide +kernel), hcomment⟩

end Flowchart
