import Flowchart.Scene

/-!
# Connectors

How each kind of edge runs from where it begins to where it ends. All of them are made of horizontal
and vertical segments only.
-/

namespace Flowchart.Edge

open Scalar

variable {α : Type} [Scalar α]

/-- The label of an edge that is taken when a condition holds. -/
def trueLabel : String := "True"

/-- The label of an edge that is taken when a condition fails. -/
def falseLabel : String := "False"

/-- Straight down within a column; otherwise down to the middle height, across, and down again. -/
def route (kind : EdgeKind) (source target : Point α) : Edge α :=
  if source.isAligned target then { kind, source, waypoints := [], target }
  else
    let middle := (source.midpoint target).y
    { kind, source, waypoints := [⟨source.x, middle⟩, ⟨target.x, middle⟩], target }

/-- Straight down the column `x`. -/
def down (kind : EdgeKind) (x fromY toY : α) : Edge α := route kind ⟨x, fromY⟩ ⟨x, toY⟩

@[simp] theorem kind_down (kind : EdgeKind) (x a b : α) : (down kind x a b).kind = kind := by
  unfold down route
  split <;> rfl

@[simp] theorem label_down (kind : EdgeKind) (x a b : α) : (down kind x a b).label = none := by
  unfold down route
  split <;> rfl

@[simp] theorem dashed_down (kind : EdgeKind) (x a b : α) : (down kind x a b).dashed = false := by
  unfold down route
  split <;> rfl

/-- From a decision down into its true branch or its body. -/
def trueArm (x fromY toY : α) : Edge α :=
  { down .trueArm x fromY toY with label := some trueLabel }

/-- From the right vertex of a diamond across to the column of the false branch, then down. -/
def falseArm (vertex : Point α) (x toY : α) : Edge α where
  kind := .falseArm
  source := vertex
  waypoints := [{ vertex with x }]
  target := ⟨x, toY⟩
  label := some falseLabel

/-- From the end of a false branch down to the height where the branches meet, then across. -/
def falseMerge (falseX fromY x toY : α) : Edge α where
  kind := .merge
  source := ⟨falseX, fromY⟩
  waypoints := [⟨falseX, toY⟩]
  target := ⟨x, toY⟩

/-- From the end of a body across to the lane of the way back, up, and into the left vertex of the
diamond. -/
def loopBack (source : Point α) (lane : α) (vertex : Point α) : Edge α where
  kind := .loopBack
  source := source
  waypoints := [{ source with x := lane }, { vertex with x := lane }]
  target := vertex
  dashed := true

/-- From the right vertex of a diamond across to the lane of the way out, down, and back into the
column `x`. -/
def loopExit (vertex : Point α) (lane x toY : α) : Edge α where
  kind := .loopExit
  source := vertex
  waypoints := [{ vertex with x := lane }, ⟨lane, toY⟩]
  target := ⟨x, toY⟩
  label := some falseLabel

end Flowchart.Edge
