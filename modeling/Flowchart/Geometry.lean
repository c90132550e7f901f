import Flowchart.Scalar

/-!
# Plane geometry of a chart

Points, sizes, rectangles and margins. The x axis runs to the right and the y axis down, so that what
comes later in a sequence has a larger y.
-/

namespace Flowchart

open Scalar

variable {α : Type} [Scalar α]

/-- A place in the chart. -/
structure Point (α : Type) where
  x : α
  y : α
deriving BEq, DecidableEq, Repr

/-- The extent of something. -/
structure Size (α : Type) where
  width : α
  height : α
deriving BEq, DecidableEq, Repr

/-- A rectangle with sides parallel to the axes. -/
structure Bounds (α : Type) where
  minX : α
  minY : α
  maxX : α
  maxY : α
deriving BEq, DecidableEq, Repr

/-- Margins on the four sides of a rectangle. -/
structure Insets (α : Type) where
  top : α
  right : α
  bottom : α
  left : α
deriving BEq, DecidableEq, Repr

namespace Point

/-- The point `offset` away from `p`, as seen from the origin. -/
def add (p offset : Point α) : Point α := ⟨p.x + offset.x, p.y + offset.y⟩

/-- The point moved right by `dx`. -/
def shifted (dx : α) (p : Point α) : Point α := p.add ⟨dx, zero⟩

/-- The point halfway between two others. -/
def midpoint (p q : Point α) : Point α := ⟨half (p.x + q.x), half (p.y + q.y)⟩

/-- Two points share a column, so that one vertical segment joins them. -/
def isAligned (p q : Point α) : Bool := p.x == q.x

end Point

namespace Bounds

/-- The rectangle of a given size around a point. -/
def around (center : Point α) (size : Size α) : Bounds α where
  minX := center.x - half size.width
  minY := center.y - half size.height
  maxX := center.x + half size.width
  maxY := center.y + half size.height

/-- The rectangle that holds one point only. -/
def ofPoint (p : Point α) : Bounds α := ⟨p.x, p.y, p.x, p.y⟩

/-- The rectangle that holds the origin only. -/
def origin : Bounds α := ofPoint ⟨zero, zero⟩

def width (b : Bounds α) : α := b.maxX - b.minX

def height (b : Bounds α) : α := b.maxY - b.minY

def size (b : Bounds α) : Size α := ⟨b.width, b.height⟩

def center (b : Bounds α) : Point α := ⟨half (b.minX + b.maxX), half (b.minY + b.maxY)⟩

/-- The least rectangle that holds both. -/
def merge (a b : Bounds α) : Bounds α where
  minX := least a.minX b.minX
  minY := least a.minY b.minY
  maxX := greatest a.maxX b.maxX
  maxY := greatest a.maxY b.maxY

/-- The least rectangle that holds another one and a point. -/
def cover (b : Bounds α) (p : Point α) : Bounds α := b.merge (ofPoint p)

/-- The rectangle with margins around it. -/
def pad (insets : Insets α) (b : Bounds α) : Bounds α where
  minX := b.minX - insets.left
  minY := b.minY - insets.top
  maxX := b.maxX + insets.right
  maxY := b.maxY + insets.bottom

/-- The least rectangle that holds all of a list, if it has any. -/
def mergeAll? : List (Bounds α) → Option (Bounds α)
  | [] => none
  | b :: bs => some (bs.foldl merge b)

end Bounds

/-- The same margin on every side. -/
def Insets.uniform (margin : α) : Insets α := ⟨margin, margin, margin, margin⟩

end Flowchart
