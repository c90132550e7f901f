import Flowchart.Scene
import Flowchart.Text

/-!
# How a scene is drawn

What is independent of the format that a chart is written in: the outline of each box, the lines that
a label is broken into, and the canvas around everything.

- `Box.shape` is the outline of a box, and `Shape.vertices` its corners.
- `wrap` breaks a label at white space, filling each line as far as it goes.
- `Scene.canvas` holds the whole scene, with a margin; `Scene.offset` moves it to the origin.
-/

namespace Flowchart

open Scalar

variable {α : Type} [Scalar α]

/-! ## Outlines -/

/-- An outline. -/
inductive Shape (α : Type) where
  /-- A rectangle with corners rounded by `radius`. -/
  | rectangle (bounds : Bounds α) (radius : α)
  | polygon (corners : List (Point α))
deriving Repr

/-- The corners of an outline. A rectangle is drawn from its first corner, as wide and as high as it
is. -/
def Shape.vertices : Shape α → List (Point α)
  | .rectangle b _ =>
    let right := b.minX + b.width
    let bottom := b.minY + b.height
    [⟨b.minX, b.minY⟩, ⟨right, b.minY⟩, ⟨right, bottom⟩, ⟨b.minX, bottom⟩]
  | .polygon corners => corners

/-- How far the sides of a parallelogram lean. -/
def slant : α := ofNat 15

/-- The parallelogram that leans to the right within a rectangle. -/
def parallelogram (b : Bounds α) : Shape α :=
  .polygon [⟨b.minX + slant, b.minY⟩, ⟨b.maxX, b.minY⟩, ⟨b.maxX - slant, b.maxY⟩,
    ⟨b.minX, b.maxY⟩]

/-- The diamond that touches the sides of a rectangle in their middles. -/
def rhombus (b : Bounds α) : Shape α :=
  .polygon [⟨b.center.x, b.minY⟩, ⟨b.maxX, b.center.y⟩, ⟨b.center.x, b.maxY⟩,
    ⟨b.minX, b.center.y⟩]

namespace Box

/-- The outline of a box: round ends for where a program begins or ends, a rectangle for what it
computes, a parallelogram for what it reads or prints, and a diamond for a decision. -/
def shape (b : Box α) : Shape α :=
  match b.kind with
  | .step .process => .rectangle b.bounds (ofNat 4)
  | .step .start | .step .stop => .rectangle b.bounds (half b.size.height)
  | .step .io => parallelogram b.bounds
  | .branch | .loop => rhombus b.occupied

/-- The width that the lines of a label may have. -/
def labelWidth (b : Box α) : α :=
  if b.kind.isDecision then b.size.width * (ofNat 8 / ofNat 10) else b.size.width - ofNat 2 * slant

end Box

/-! ## Labels -/

/-- The words of a line with one space between neighbours. -/
def joinWords (line : List (List Char)) : List Char := [' '].intercalate line

/-- The words after `line`, broken into lines of at most `limit` characters where there is a choice;
`line` is the beginning of the first of them. -/
def fillLines (limit : Nat) (line : List (List Char)) : List (List Char) → List (List (List Char))
  | [] => [line]
  | word :: words =>
    if (joinWords (line ++ [word])).length ≤ limit then fillLines limit (line ++ [word]) words
    else line :: fillLines limit [word] words

/-- The lines of a label, of at most `limit` characters where they have more than one word. A label
without words has one empty line. -/
def wrap (limit : Nat) (label : List Char) : List (List Char) :=
  match Text.words label with
  | [] => [[]]
  | word :: words => (fillLines limit [word] words).map joinWords

/-! ## The canvas -/

/-- The free space around a chart. -/
def margin : α := ofNat 40

/-- The part of the plane that a drawing of the scene shows. -/
def Scene.canvas (s : Scene α) : Bounds α :=
  (s.bounds?.getD .origin).pad (.uniform margin)

/-- How far a drawing of the scene is moved, so that its canvas begins at the origin. -/
def Scene.offset (s : Scene α) : Point α := ⟨-s.canvas.minX, -s.canvas.minY⟩

end Flowchart
