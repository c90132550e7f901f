import Flowchart.Layout.Connector

/-!
# Layout

A flow tree becomes a scene. A sequence stacks from top to bottom in one column. A decision puts its
diamond into the column and what happens when its condition holds below it, in the same column; the
false branch of an `if` goes into a column further right.

- `Layout.sequence` lays out one sequence in a column, from a given height down.
- `Layout.program` lays out a whole program at the origin of the settings.
- A sequence that lies deeper than the settings allow fails, and with it the whole layout.
-/

namespace Flowchart

namespace Layout

open Scalar

/-- The distances and sizes that a layout keeps to. A diamond is a square of `decisionSize` on its
corner; how high it stands and how far it reaches to each side are given apart from that. -/
structure Settings (α : Type) where
  originX : α
  originY : α
  nodeWidth : α
  nodeHeight : α
  /-- The free height below every shape. -/
  verticalGap : α
  /-- The least distance from the column of an `if` to that of its false branch. -/
  horizontalGap : α
  decisionSize : α
  decisionHeight : α
  decisionHalfWidth : α
  /-- The least distance from the column of a loop to the lane of its way back. -/
  loopReturnOffset : α
  /-- The least distance from the column of a loop to the lane of its way out. -/
  loopExitOffset : α
  /-- The free width kept beside a lane or a column. -/
  laneClearance : α
  /-- How deep sequences may lie. -/
  maxDepth : Nat
deriving Repr

/-- A sequence lies deeper than `limit` levels. -/
structure TooDeep where
  limit : Nat
deriving DecidableEq, Repr

/-- What is said of a sequence that lies too deep. -/
def TooDeep.message (e : TooDeep) : String :=
  "flow nesting exceeds the maximum depth of " ++ toString e.limit

variable {α : Type} [Scalar α]

/-- The settings where none are given. -/
def Settings.default : Settings α where
  originX := ofNat 400
  originY := ofNat 50
  nodeWidth := ofNat 160
  nodeHeight := ofNat 60
  verticalGap := ofNat 120
  horizontalGap := ofNat 340
  decisionSize := ofNat 160
  decisionHeight := ofNat 226
  decisionHalfWidth := ofNat 113
  loopReturnOffset := ofNat 140
  loopExitOffset := ofNat 260
  laneClearance := ofNat 40
  maxDepth := 64

instance : Inhabited (Settings α) := ⟨.default⟩

variable (s : Settings α)

/-! ## Shapes -/

/-- The box of a step whose top is at height `y`. -/
def stepBox (kind : StepKind) (label : String) (x y : α) : Box α :=
  let size := ⟨s.nodeWidth, s.nodeHeight⟩
  { kind := .step kind, label, centerX := x, topY := y, size, footprint := size }

/-- The diamond of a decision whose footprint begins at height `y`. -/
def diamond (kind : NodeKind) (condition : String) (x y : α) : Box α where
  kind := kind
  label := condition
  centerX := x
  topY := y + half (s.decisionHeight - s.decisionSize)
  size := ⟨s.decisionSize, s.decisionSize⟩
  footprint := ⟨ofNat 2 * s.decisionHalfWidth, s.decisionHeight⟩

/-- The height of a diamond's left and right vertices. -/
def vertexY (y : α) : α := y + half s.decisionHeight

/-- The height at which a diamond ends. -/
def armY (y : α) : α := y + s.decisionHeight

/-- The height at which what belongs to a decision begins. -/
def innerY (y : α) : α := armY s y + s.verticalGap

/-- The height at which the way out of a laid-out sequence begins: below its last shape, or where the
way in has arrived if there is none. -/
def connectY (y : α) (nodes : List Node) (part : Scene α) : α :=
  if nodes.isEmpty then innerY s y else part.endY - s.verticalGap

/-! ## Putting parts together -/

/-- A step alone. -/
def stepScene (kind : StepKind) (label : String) (x y : α) : Scene α where
  boxes := [stepBox s kind label x y]
  edges := []
  endY := y + (s.nodeHeight + s.verticalGap)

/-- How far the false branch moves right, so that it keeps its distance from the diamond and the true
branch. -/
def falseShift (diamond : Bounds α) (whenTrue whenFalse : Scene α) : α :=
  match whenFalse.bounds? with
  | none => zero
  | some bounds =>
    let extent := match whenTrue.bounds? with
      | none => diamond.maxX
      | some bounds => greatest bounds.maxX diamond.maxX
    greatest (extent + s.laneClearance - bounds.minX) zero

/-- An `if` with its branches `t` and `f`, of which `whenTrue` and `whenFalse` are the layouts, the
latter `horizontalGap` to the right. -/
def branchScene (condition : String) (x y : α) (t f : List Node) (whenTrue whenFalse : Scene α) :
    Scene α :=
  let box := diamond s .branch condition x y
  let shift := falseShift s box.occupied whenTrue whenFalse
  let falseX := x + s.horizontalGap + shift
  let mergeY := greatest whenTrue.endY whenFalse.endY + s.verticalGap
  let shifted := whenFalse.shifted shift
  { boxes := box :: (whenTrue.boxes ++ shifted.boxes)
    edges :=
      .trueArm x (armY s y) (innerY s y) ::
      .falseArm ⟨x + s.decisionHalfWidth, vertexY s y⟩ falseX (innerY s y) ::
      (whenTrue.edges ++ .down .merge x (connectY s y t whenTrue) mergeY ::
      (shifted.edges ++ [.falseMerge falseX (connectY s y f whenFalse) x mergeY]))
    endY := mergeY }

/-- The lanes of a loop's way back and way out, left and right of everything in its body. -/
def loopLanes (x : α) (body : Scene α) : α × α :=
  let back := x - s.loopReturnOffset
  let out := x + s.loopExitOffset
  match body.bounds? with
  | none => (back, out)
  | some bounds =>
    (least back (bounds.minX - s.laneClearance), greatest out (bounds.maxX + s.laneClearance))

/-- A loop with its body `nodes`, of which `body` is the layout. -/
def loopScene (condition : String) (x y : α) (nodes : List Node) (body : Scene α) : Scene α :=
  let exitY := body.endY + s.verticalGap
  let (back, out) := loopLanes s x body
  { boxes := diamond s .loop condition x y :: body.boxes
    edges :=
      .trueArm x (armY s y) (innerY s y) :: (body.edges ++
      [.loopBack ⟨x, connectY s y nodes body⟩ back ⟨x - s.decisionHalfWidth, vertexY s y⟩,
        .loopExit ⟨x + s.decisionHalfWidth, vertexY s y⟩ out x exitY])
    endY := exitY }

/-- The edge from a node at height `y` to what follows it at height `nextY`. Only a step has one: a
decision has its own way there. -/
def sequenceEdges (n : Node) (rest : List Node) (x y nextY : α) : List (Edge α) :=
  match n, rest with
  | .step .., _ :: _ => [.down .sequence x (y + s.nodeHeight) nextY]
  | _, _ => []

/-! ## Flow trees -/

mutual

/-- Lays out a node of a sequence that lies `depth` levels deep. -/
def node (depth : Nat) (x y : α) : Node → Except TooDeep (Scene α)
  | .step kind label => .ok (stepScene s kind label x y)
  | .branch condition t f =>
    if s.maxDepth < depth + 1 then .error ⟨s.maxDepth⟩
    else do
      let whenTrue ← column (depth + 1) x (innerY s y) t
      let whenFalse ← column (depth + 1) (x + s.horizontalGap) (innerY s y) f
      return branchScene s condition x y t f whenTrue whenFalse
  | .loop condition nodes =>
    if s.maxDepth < depth + 1 then .error ⟨s.maxDepth⟩
    else do
      let body ← column (depth + 1) x (innerY s y) nodes
      return loopScene s condition x y nodes body

/-- Lays out the nodes of a sequence that lies `depth` levels deep, from height `y` down. -/
def column (depth : Nat) (x y : α) : List Node → Except TooDeep (Scene α)
  | [] => .ok (.empty y)
  | n :: ns => do
    let first ← node depth x y n
    let rest ← column depth x first.endY ns
    return {
      boxes := first.boxes ++ rest.boxes
      edges := first.edges ++ sequenceEdges s n ns x y first.endY ++ rest.edges
      endY := rest.endY }

end

/-- Lays out a sequence that lies `depth` levels deep in the column `x`, from height `y` down. -/
def sequence (nodes : List Node) (x y : α) (depth : Nat) : Except TooDeep (Scene α) :=
  if s.maxDepth < depth then .error ⟨s.maxDepth⟩ else column s depth x y nodes

/-- Lays out a whole program. -/
def program (p : Program) : Except TooDeep (Scene α) :=
  sequence s p.nodes s.originX s.originY 0

end Layout

end Flowchart
