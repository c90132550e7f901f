import Flowchart.Text.Literal

/-!
# Lexemes of a statement

A lexeme is the smallest unit that the text of one statement is cut into: a literal, a word, a
parenthesis or any other single character. Literals run over line breaks, so an unterminated one
reaches to the end of the statement.

- `Lexeme.first` cuts the first lexeme off (`first_append`, `length_first_lt`).
- `lexemes` cuts all of a text; their texts, one after the other, are the statement
  (`flatMap_text_lexemes`).
-/

namespace Flowchart

/-- What a lexeme is. -/
inductive LexemeKind where
  /-- A literal in double quotes. -/
  | string
  /-- A literal in single quotes. -/
  | character
  /-- A run of word characters. -/
  | word
  | openParen
  | closeParen
  /-- Any other single character. -/
  | symbol
deriving DecidableEq, Repr

/-- A lexeme with its text. -/
structure Lexeme where
  kind : LexemeKind
  text : List Char
deriving DecidableEq, Repr

namespace Lexeme

/-- What a lexeme that begins with `c` is. -/
def kindAt (c : Char) : LexemeKind :=
  if c = '"' then .string
  else if c = '\'' then .character
  else if isWordChar c then .word
  else if c = '(' then .openParen
  else if c = ')' then .closeParen
  else .symbol

/-- How far a lexeme that begins with `c` reaches into the text `cs` after it: the characters of
`cs` that it takes and those that it leaves. -/
def extent (kind : LexemeKind) (c : Char) (cs : List Char) : List Char × List Char :=
  match kind with
  | .string | .character => Literal.scan (fun _ => false) c cs
  | .word => (cs.takeWhile isWordChar, cs.dropWhile isWordChar)
  | .openParen | .closeParen | .symbol => ([], cs)

/-- The first lexeme of the text `c :: cs` and the text after it. -/
def first (c : Char) (cs : List Char) : Lexeme × List Char :=
  let (taken, rest) := extent (kindAt c) c cs
  (⟨kindAt c, c :: taken⟩, rest)

theorem extent_append (kind : LexemeKind) (c : Char) (cs : List Char) :
    (extent kind c cs).1 ++ (extent kind c cs).2 = cs := by
  cases kind with
  | string | character => exact Literal.scan_append ..
  | word => exact List.takeWhile_append_dropWhile
  | openParen | closeParen | symbol => rfl

theorem first_append (c : Char) (cs : List Char) :
    (first c cs).1.text ++ (first c cs).2 = c :: cs := by
  simp [first, extent_append]

theorem length_first_lt (c : Char) (cs : List Char) :
    (first c cs).2.length < (c :: cs).length := by
  have append := congrArg List.length (extent_append (kindAt c) c cs)
  simp only [first, List.length_cons, List.length_append] at append ⊢
  omega

end Lexeme

/-- The lexemes of a statement, in order. -/
def lexemes : List Char → List Lexeme
  | [] => []
  | c :: cs => (Lexeme.first c cs).1 :: lexemes (Lexeme.first c cs).2
termination_by cs => cs.length
decreasing_by exact Lexeme.length_first_lt c cs

theorem flatMap_text_lexemes (cs : List Char) : (lexemes cs).flatMap Lexeme.text = cs := by
  fun_induction lexemes cs with
  | case1 => rfl
  | case2 c cs ih => simpa [ih] using Lexeme.first_append c cs

end Flowchart
