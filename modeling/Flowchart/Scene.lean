import Flowchart.Flow
import Flowchart.Geometry

/-!
# Scenes

A scene is a chart with every shape in its place: one box for each node of a flow tree, in the order
of the tree, and the edges that join them. It also knows the first free height below everything.
-/

namespace Flowchart

open Scalar

variable {α : Type} [Scalar α]

/-! ## Boxes -/

/-- The shape of one node. A diamond reaches beyond its nominal box; the footprint is what the shape
occupies, around the same centre. -/
structure Box (α : Type) where
  kind : NodeKind
  label : String
  centerX : α
  topY : α
  size : Size α
  footprint : Size α
deriving Repr

namespace Box

/-- The centre of the box. -/
def center (b : Box α) : Point α := ⟨b.centerX, b.topY + half b.size.height⟩

/-- The nominal box. -/
def bounds (b : Box α) : Bounds α := .around b.center b.size

/-- What the shape occupies. -/
def occupied (b : Box α) : Bounds α := .around b.center b.footprint

/-- The box moved right by `dx`. -/
def shifted (dx : α) (b : Box α) : Box α := { b with centerX := b.centerX + dx }

end Box

/-! ## Edges -/

/-- What an edge stands for. -/
inductive EdgeKind where
  /-- From a step to the next node of its sequence. -/
  | sequence
  /-- From a decision down into what happens when its condition holds. -/
  | trueArm
  /-- From an `if` across into what happens when its condition fails. -/
  | falseArm
  /-- From the end of a branch to where the branches come together. -/
  | merge
  /-- From the end of a loop's body back to its condition. -/
  | loopBack
  /-- From a loop around its body to what comes after it. -/
  | loopExit
deriving DecidableEq, Repr

/-- The name of what an edge stands for. -/
def EdgeKind.name : EdgeKind → String
  | .sequence => "Sequence"
  | .trueArm => "TrueArm"
  | .falseArm => "FalseArm"
  | .merge => "Merge"
  | .loopBack => "LoopBack"
  | .loopExit => "LoopExit"

/-- A connector: a line from one point over some others to the last, where its arrow head is. -/
structure Edge (α : Type) where
  kind : EdgeKind
  source : Point α
  waypoints : List (Point α)
  target : Point α
  label : Option String := none
  dashed : Bool := false
deriving Repr

namespace Edge

/-- All corners of the line, both ends included. -/
def points (e : Edge α) : List (Point α) := e.source :: (e.waypoints ++ [e.target])

/-- The straight parts of the line. -/
def segments (e : Edge α) : List (Point α × Point α) := e.points.zip e.points.tail

/-- Every part of the line is horizontal or vertical. -/
def isOrthogonal (e : Edge α) : Bool :=
  e.segments.all fun (p, q) => p.x == q.x || p.y == q.y

/-- The least rectangle that holds the line. -/
def bounds (e : Edge α) : Bounds α := e.points.foldl Bounds.cover (.ofPoint e.source)

/-- The edge moved right by `dx`. -/
def shifted (dx : α) (e : Edge α) : Edge α :=
  { e with
    source := e.source.shifted dx
    waypoints := e.waypoints.map (.shifted dx)
    target := e.target.shifted dx }

end Edge

/-! ## Scenes -/

/-- Boxes and edges in their places, and the first free height below them. -/
structure Scene (α : Type) where
  boxes : List (Box α)
  edges : List (Edge α)
  endY : α
deriving Repr

namespace Scene

/-- A scene without anything in it, with everything below `y` free. -/
def empty (y : α) : Scene α := ⟨[], [], y⟩

def isEmpty (s : Scene α) : Bool := s.boxes.isEmpty

/-- The least rectangle that holds the footprints of all boxes and the lines of all edges. -/
def bounds? (s : Scene α) : Option (Bounds α) :=
  Bounds.mergeAll? (s.boxes.map Box.occupied ++ s.edges.map Edge.bounds)

/-- The scene moved right by `dx`. -/
def shifted (dx : α) (s : Scene α) : Scene α :=
  { s with boxes := s.boxes.map (.shifted dx), edges := s.edges.map (.shifted dx) }

end Scene

end Flowchart
