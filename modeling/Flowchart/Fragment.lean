import Flowchart.Piece
import Flowchart.Span

/-!
# Fragments

A fragment is one statement, header, brace or `else` of source text, trimmed and without comments,
with the span of the text that it was made of. `tokenize` cuts a source into fragments: it never
fails, since text that is nothing special belongs to the statement around it.

- Braces and the word `else` are fragments of their own; they and line breaks end the statement
  before them.
- A comment inside a statement becomes one space. It does not widen the span, and neither does
  white space: a span runs from the first to the last piece that is more than that.
-/

namespace Flowchart

/-- One unit of source text that the block reader works on. -/
structure Fragment where
  text : List Char
  span : Span
deriving DecidableEq, Repr

namespace Fragment

/-- The fragment is an opening brace. -/
def isOpen (f : Fragment) : Bool := f.text == ['{']

/-- The fragment is a closing brace. -/
def isClose (f : Fragment) : Bool := f.text == ['}']

/-- The fragment is the word `else`. -/
def isElse (f : Fragment) : Bool := f.text == "else".toList

/-- The same text `distance` bytes further right. -/
def moved (distance : Nat) (f : Fragment) : Fragment :=
  { f with span := f.span.moved distance }

end Fragment

/-- A statement that has begun and not ended yet: the text so far, untrimmed, and the span of its
pieces that are more than white space. -/
structure Unfinished where
  text : List Char
  span : Span
deriving DecidableEq, Repr

namespace Unfinished

/-- The statement with more text that does not widen its span. -/
def pad (text : List Char) (u : Unfinished) : Unfinished :=
  { u with text := u.text ++ text }

/-- The statement continued by a piece, or begun by it. -/
def extend (text : List Char) (span : Span) : Option Unfinished → Unfinished
  | none => ⟨text, span⟩
  | some u => ⟨u.text ++ text, u.span.union span⟩

/-- The fragment of the statement, if there is one and it is not blank. -/
def finish (u : Option Unfinished) : List Fragment :=
  match u with
  | none => []
  | some u =>
    let text := Text.trim u.text
    if text.isEmpty then [] else [⟨text, u.span⟩]

end Unfinished

/-- The fragments of a list of pieces, the first of them at byte `offset`, with the statement `u`
under way. -/
def assemble (offset : Nat) (u : Option Unfinished) : List Piece → List Fragment
  | [] => Unfinished.finish u
  | p :: ps =>
    let next := offset + Text.byteLength p.text
    match p.kind with
    | .newline => Unfinished.finish u ++ assemble next none ps
    | .openBrace | .closeBrace | .otherwise =>
      Unfinished.finish u ++ ⟨p.text, .between offset next⟩ :: assemble next none ps
    | .directive => assemble next u ps
    | .comment => assemble next (u.map (.pad [' '])) ps
    | .string | .character | .word | .symbol =>
      if Text.isBlankText p.text then assemble next (u.map (.pad p.text)) ps
      else assemble next (some (.extend p.text (.between offset next) u)) ps

/-- The fragments of a source, in order. -/
def tokenize (source : List Char) : List Fragment :=
  assemble 0 none (pieces true source)

end Flowchart
