import Flowchart.Text.Literal

/-!
# Pieces of source text

A piece is the smallest unit that source text is cut into: a literal, a word, a comment, a directive
line, a brace, a line break or any other single character.

- `Piece.first` cuts the first piece off; what it takes and what it leaves are the text
  (`first_append`), and it always takes something (`length_first_lt`).
- `pieces` cuts all of a text; the texts of the pieces, one after the other, are the source
  (`flatMap_text_pieces`).
- A `#` begins a directive only at the start of a statement, that is, where nothing but white space
  and comments stands between it and the last line break, brace or `else`.
-/

namespace Flowchart

/-- What a piece of source text is. -/
inductive PieceKind where
  /-- A literal in double quotes. -/
  | string
  /-- A literal in single quotes. -/
  | character
  /-- A run of word characters other than `else`. -/
  | word
  /-- Any other single character, white space included. -/
  | symbol
  /-- A comment, of either form. -/
  | comment
  /-- A line that begins with `#`. -/
  | directive
  | newline
  | openBrace
  | closeBrace
  /-- The word `else`. -/
  | otherwise
deriving DecidableEq, Repr

/-- A piece of source text. -/
structure Piece where
  kind : PieceKind
  text : List Char
deriving DecidableEq, Repr

namespace Piece

/-- The rest of a block comment after its opening, up to its end or the end of the text, and the
text after the comment. -/
def scanComment : List Char → List Char × List Char
  | [] => ([], [])
  | c :: cs =>
    if c = '*' ∧ cs.head? = some '/' then ([c, '/'], cs.tail)
    else
      let (taken, rest) := scanComment cs
      (c :: taken, rest)

/-- What the first piece of the text `c :: cs` is; `atStart` says that a statement has not begun
yet. -/
def kindAt (atStart : Bool) (c : Char) (cs : List Char) : PieceKind :=
  if atStart ∧ c = '#' then .directive
  else if c = '/' ∧ (cs.head? = some '/' ∨ cs.head? = some '*') then .comment
  else if c = '\n' then .newline
  else if c = '{' then .openBrace
  else if c = '}' then .closeBrace
  else if c = '"' then .string
  else if c = '\'' then .character
  else if isWordChar c then
    if c :: cs.takeWhile isWordChar = "else".toList then .otherwise else .word
  else .symbol

/-- How far a piece that begins with `c` reaches into the text `cs` after it: the characters of
`cs` that it takes and those that it leaves. -/
def extent (kind : PieceKind) (c : Char) (cs : List Char) : List Char × List Char :=
  match kind with
  | .string | .character => Literal.scan (· == '\n') c cs
  | .word | .otherwise => (cs.takeWhile isWordChar, cs.dropWhile isWordChar)
  | .directive => (cs.takeWhile (· != '\n'), cs.dropWhile (· != '\n'))
  | .comment =>
    if cs.head? = some '*' then
      let (taken, rest) := scanComment cs.tail
      ('*' :: taken, rest)
    else (cs.takeWhile (· != '\n'), cs.dropWhile (· != '\n'))
  | .newline | .openBrace | .closeBrace | .symbol => ([], cs)

/-- The first piece of the text `c :: cs` and the text after it. -/
def first (atStart : Bool) (c : Char) (cs : List Char) : Piece × List Char :=
  let kind := kindAt atStart c cs
  let (taken, rest) := extent kind c cs
  (⟨kind, c :: taken⟩, rest)

/-- Whether the next piece stands at the start of a statement, when this one stood there if
`atStart`. -/
def leavesAtStart (atStart : Bool) (p : Piece) : Bool :=
  match p.kind with
  | .newline | .openBrace | .closeBrace | .otherwise => true
  | .comment | .directive => atStart
  | .string | .character | .word | .symbol => atStart && Text.isBlankText p.text

theorem scanComment_append (cs : List Char) : (scanComment cs).1 ++ (scanComment cs).2 = cs := by
  fun_induction scanComment cs with
  | case1 => rfl
  | case2 c cs h =>
    obtain ⟨rfl, h⟩ := h
    cases cs <;> simp_all
  | case3 c cs _ taken rest h ih => simp_all

theorem extent_append (kind : PieceKind) (c : Char) (cs : List Char) :
    (extent kind c cs).1 ++ (extent kind c cs).2 = cs := by
  cases kind with
  | string | character => exact Literal.scan_append ..
  | word | otherwise | directive => exact List.takeWhile_append_dropWhile
  | comment =>
    by_cases h : cs.head? = some '*'
    · obtain ⟨ds, rfl⟩ := List.head?_eq_some_iff.1 h
      simp [extent, scanComment_append]
    · simp [extent, h]
  | newline | openBrace | closeBrace | symbol => rfl

theorem first_append (atStart : Bool) (c : Char) (cs : List Char) :
    (first atStart c cs).1.text ++ (first atStart c cs).2 = c :: cs := by
  simp [first, extent_append]

theorem length_first_lt (atStart : Bool) (c : Char) (cs : List Char) :
    (first atStart c cs).2.length < (c :: cs).length := by
  have append := congrArg List.length (extent_append (kindAt atStart c cs) c cs)
  simp only [first, List.length_cons, List.length_append] at append ⊢
  omega

end Piece

/-- The pieces of a text, in order. -/
def pieces (atStart : Bool) : List Char → List Piece
  | [] => []
  | c :: cs =>
    let p := (Piece.first atStart c cs).1
    p :: pieces (p.leavesAtStart atStart) (Piece.first atStart c cs).2
termination_by cs => cs.length
decreasing_by exact Piece.length_first_lt atStart c cs

theorem flatMap_text_pieces (atStart : Bool) (cs : List Char) :
    (pieces atStart cs).flatMap Piece.text = cs := by
  fun_induction pieces atStart cs with
  | case1 => rfl
  | case2 atStart c cs p ih => simpa [p, ih] using Piece.first_append atStart c cs

end Flowchart
