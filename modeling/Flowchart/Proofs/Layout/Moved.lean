import Mathlib.Algebra.Order.Group.MinMax
import Flowchart.Proofs.Geometry.Line
import Flowchart.Proofs.Layout.Induction

/-!
# Layouts that move

In exact arithmetic a layout that begins somewhere else is the same layout, moved
(`sequence_moved`). So what `branchScene` does to a false branch, to lay it out in one column and to
move it to another, is what laying it out in the other column would do.

* `Scene.moved`: every corner of a drawing, and the first free height below it, moved by an offset.
* What a layout measures of its parts moves with them (`bounds?_moved`), so the lanes of a loop do
  as well (`loopLanes_moved`), and the shift of a false branch stays the same (`falseShift_moved`).
-/

namespace Flowchart

open Scalar

/-! ## Moved drawings -/

/-- The rectangle moved by `d`. -/
def Bounds.moved (d : Point Rat) (b : Bounds Rat) : Bounds Rat :=
  ⟨b.minX + d.x, b.minY + d.y, b.maxX + d.x, b.maxY + d.y⟩

/-- The box moved by `d`. -/
def Box.moved (d : Point Rat) (b : Box Rat) : Box Rat :=
  { b with centerX := b.centerX + d.x, topY := b.topY + d.y }

/-- The edge moved by `d`. -/
def Edge.moved (d : Point Rat) (e : Edge Rat) : Edge Rat :=
  { e with
    source := e.source.add d
    waypoints := e.waypoints.map (·.add d)
    target := e.target.add d }

/-- The scene moved by `d`. -/
def Scene.moved (d : Point Rat) (p : Scene Rat) : Scene Rat where
  boxes := p.boxes.map (.moved d)
  edges := p.edges.map (.moved d)
  endY := p.endY + d.y

variable {d : Point Rat}

theorem least_add (a b c : Rat) : least (a + c) (b + c) = least a b + c := min_add_add_right a b c

theorem greatest_add (a b c : Rat) : greatest (a + c) (b + c) = greatest a b + c :=
  max_add_add_right a b c

theorem Bounds.merge_moved (a b : Bounds Rat) :
    (a.moved d).merge (b.moved d) = (a.merge b).moved d := by
  simp only [merge, moved, least_add, greatest_add]

theorem Bounds.mergeAll?_moved (bs : List (Bounds Rat)) :
    mergeAll? (bs.map (.moved d)) = (mergeAll? bs).map (.moved d) := by
  cases bs with
  | nil => rfl
  | cons b bs =>
    rw [List.map_cons, mergeAll?, mergeAll?, List.foldl_map, Option.map_some]
    exact congrArg some (List.foldl_hom (Bounds.moved d) merge_moved)

theorem Edge.bounds_moved (e : Edge Rat) : (e.moved d).bounds = e.bounds.moved d := by
  have hpoints : (e.moved d).points = e.points.map (·.add d) := by simp [points, moved]
  rw [bounds, bounds, hpoints, List.foldl_map]
  show e.points.foldl _ ((Bounds.ofPoint e.source).moved d) = _
  exact List.foldl_hom (Bounds.moved d) fun a q => Bounds.merge_moved a (.ofPoint q)

theorem Box.occupied_moved (b : Box Rat) : (b.moved d).occupied = b.occupied.moved d := by
  simp only [occupied, moved, center, Bounds.around, Bounds.moved]
  congr 1 <;> ring

theorem Scene.bounds?_moved (p : Scene Rat) : (p.moved d).bounds? = p.bounds?.map (.moved d) := by
  rw [bounds?, bounds?, ← Bounds.mergeAll?_moved, List.map_append, List.map_map, List.map_map,
    moved, List.map_map, List.map_map]
  congr 3 <;> funext a
  · exact Box.occupied_moved a
  · exact Edge.bounds_moved a

/-! ## Moved connectors -/

namespace Edge

variable (kind : EdgeKind) (x a b lane : Rat) (p q : Point Rat)

theorem moved_down : (down kind x a b).moved d = down kind (x + d.x) (a + d.y) (b + d.y) := by
  simp [down, route, Point.isAligned, moved, Point.add]

theorem moved_trueArm : (trueArm x a b).moved d = trueArm (x + d.x) (a + d.y) (b + d.y) := by
  simp [trueArm, down, route, Point.isAligned, moved, Point.add]

theorem moved_falseArm : (falseArm p x b).moved d = falseArm (p.add d) (x + d.x) (b + d.y) := rfl

theorem moved_falseMerge : (falseMerge lane a x b).moved d =
    falseMerge (lane + d.x) (a + d.y) (x + d.x) (b + d.y) := rfl

theorem moved_loopBack :
    (loopBack p lane q).moved d = loopBack (p.add d) (lane + d.x) (q.add d) := rfl

theorem moved_loopExit :
    (loopExit p lane x b).moved d = loopExit (p.add d) (lane + d.x) (x + d.x) (b + d.y) := rfl

theorem moved_shifted (dx : Rat) (e : Edge Rat) :
    (e.shifted dx).moved d = (e.moved d).shifted dx := by
  have hpoint (p : Point Rat) : (p.shifted dx).add d = (p.add d).shifted dx := by
    simp only [Point.shifted, Point.add]
    congr 1 <;> ring
  simp only [moved, shifted, List.map_map, hpoint]
  congr 2
  funext p
  exact hpoint p

end Edge

theorem Scene.moved_shifted (dx : Rat) (p : Scene Rat) :
    (p.shifted dx).moved d = (p.moved d).shifted dx := by
  simp only [moved, shifted, List.map_map]
  congr 2 <;> funext a
  · simp only [Function.comp_apply, Box.moved, Box.shifted, add_right_comm]
  · exact Edge.moved_shifted dx a

theorem Scene.moved_right (dx : Rat) : Scene.moved ⟨dx, 0⟩ = Scene.shifted dx := by
  funext p
  simp [moved, shifted, Box.moved, Box.shifted, Edge.moved, Edge.shifted, Point.shifted, zero,
    Scalar.ofNat]

namespace Layout

variable {s : Settings Rat} (x y : Rat)

/-! ## Moved parts -/

theorem innerY_add (c : Rat) : innerY s (y + c) = innerY s y + c := by
  simp only [innerY, armY]
  ring

theorem armY_add (c : Rat) : armY s (y + c) = armY s y + c := add_right_comm ..

theorem vertexY_add (c : Rat) : vertexY s (y + c) = vertexY s y + c := add_right_comm ..

/-- The right vertex of a diamond, where its way out begins. -/
theorem rightVertex_add :
    (⟨x + d.x + s.decisionHalfWidth, vertexY s (y + d.y)⟩ : Point Rat) =
      Point.add ⟨x + s.decisionHalfWidth, vertexY s y⟩ d := by
  rw [vertexY_add, add_right_comm]
  rfl

theorem connectY_moved (nodes : List Node) (part : Scene Rat) :
    connectY s (y + d.y) nodes (part.moved d) = connectY s y nodes part + d.y := by
  simp only [connectY, innerY_add, Scene.moved]
  split
  · rfl
  · ring

theorem diamond_moved (kind : NodeKind) (c : String) :
    diamond s kind c (x + d.x) (y + d.y) = (diamond s kind c x y).moved d := by
  simp only [diamond, Box.moved, add_right_comm]

/-- The distances that a false branch keeps are the same wherever the `if` stands. -/
theorem falseShift_moved (diamond : Bounds Rat) (whenTrue whenFalse : Scene Rat) :
    falseShift s (diamond.moved d) (whenTrue.moved d) (whenFalse.moved d) =
      falseShift s diamond whenTrue whenFalse := by
  unfold falseShift
  rw [Scene.bounds?_moved, Scene.bounds?_moved]
  cases whenFalse.bounds? with
  | none => rfl
  | some fb =>
    simp only [Option.map_some]
    cases whenTrue.bounds? with
    | none =>
      congr 1
      simp only [Option.map_none, Bounds.moved]
      ring
    | some tb =>
      congr 1
      simp only [Option.map_some, Bounds.moved, greatest_add]
      ring

theorem loopLanes_moved (body : Scene Rat) : loopLanes s (x + d.x) (body.moved d) =
    ((loopLanes s x body).1 + d.x, (loopLanes s x body).2 + d.x) := by
  unfold loopLanes
  rw [Scene.bounds?_moved]
  cases body.bounds? with
  | none =>
    simp only [Option.map_none, Prod.mk.injEq]
    exact ⟨add_sub_right_comm .., add_right_comm ..⟩
  | some b =>
    have hback : x + d.x - s.loopReturnOffset = x - s.loopReturnOffset + d.x := by ring
    have hout : x + d.x + s.loopExitOffset = x + s.loopExitOffset + d.x := by ring
    have hleft : b.minX + d.x - s.laneClearance = b.minX - s.laneClearance + d.x := by ring
    have hright : b.maxX + d.x + s.laneClearance = b.maxX + s.laneClearance + d.x := by ring
    simp only [Option.map_some, Bounds.moved, hback, hout, hleft, hright, Prod.mk.injEq]
    exact ⟨least_add .., greatest_add ..⟩

theorem stepScene_moved (kind : StepKind) (label : String) :
    stepScene s kind label (x + d.x) (y + d.y) = (stepScene s kind label x y).moved d := by
  simp only [stepScene, stepBox, Scene.moved, Box.moved, List.map_cons, List.map_nil,
    add_right_comm]

theorem branchScene_moved (c : String) (t f : List Node) (whenTrue whenFalse : Scene Rat) :
    branchScene s c (x + d.x) (y + d.y) t f (whenTrue.moved d) (whenFalse.moved d) =
      (branchScene s c x y t f whenTrue whenFalse).moved d := by
  have hcolumn (shift : Rat) : x + d.x + s.horizontalGap + shift =
      x + s.horizontalGap + shift + d.x := by ring
  have hmerge : greatest (whenTrue.moved d).endY (whenFalse.moved d).endY + s.verticalGap =
      greatest whenTrue.endY whenFalse.endY + s.verticalGap + d.y := by
    simp only [Scene.moved, greatest_add]
    ring
  simp only [branchScene, diamond_moved, Box.occupied_moved, falseShift_moved, hcolumn, hmerge,
    rightVertex_add, armY_add, innerY_add, connectY_moved, ← Scene.moved_shifted]
  simp only [Scene.moved, List.map_cons, List.map_append, List.map_nil, Edge.moved_trueArm,
    Edge.moved_falseArm, Edge.moved_down, Edge.moved_falseMerge]

theorem loopScene_moved (c : String) (nodes : List Node) (body : Scene Rat) :
    loopScene s c (x + d.x) (y + d.y) nodes (body.moved d) =
      (loopScene s c x y nodes body).moved d := by
  have hexit : (body.moved d).endY + s.verticalGap = body.endY + s.verticalGap + d.y :=
    add_right_comm ..
  have hleft : (⟨x + d.x - s.decisionHalfWidth, vertexY s (y + d.y)⟩ : Point Rat) =
      Point.add ⟨x - s.decisionHalfWidth, vertexY s y⟩ d := by
    rw [vertexY_add, add_sub_right_comm]
    rfl
  simp only [loopScene, diamond_moved, loopLanes_moved, hexit, hleft, rightVertex_add, armY_add,
    innerY_add, connectY_moved]
  simp only [Scene.moved, List.map_cons, List.map_append, List.map_nil, Edge.moved_trueArm,
    Edge.moved_loopBack, Edge.moved_loopExit]
  rfl

theorem columnScene_moved (n : Node) (ns : List Node) (first rest : Scene Rat) :
    columnScene s (x + d.x) (y + d.y) n ns (first.moved d) (rest.moved d) =
      (columnScene s x y n ns first rest).moved d := by
  have hedges : sequenceEdges s n ns (x + d.x) (y + d.y) (first.moved d).endY =
      (sequenceEdges s n ns x y first.endY).map (.moved d) := by
    cases n with
    | step kind label =>
      cases ns with
      | nil => rfl
      | cons m ms =>
        simp only [sequenceEdges, List.map_cons, List.map_nil, Edge.moved_down, Scene.moved,
          add_right_comm]
    | branch | loop => rfl
  simp only [columnScene, hedges]
  simp only [Scene.moved, List.map_append]

/-! ## Whole layouts -/

mutual

theorem node_moved (d : Point Rat) (depth : Nat) (x y : Rat) (n : Node) :
    node s depth (x + d.x) (y + d.y) n = (node s depth x y n).map (.moved d) := by
  cases n with
  | step kind label =>
    rw [node, node, stepScene_moved]
    rfl
  | branch c t f =>
    have ht := column_moved d (depth + 1) x (innerY s y) t
    have hf := column_moved d (depth + 1) (x + s.horizontalGap) (innerY s y) f
    rw [node, node]
    split
    · rfl
    · rw [innerY_add, add_right_comm x, ht, hf]
      cases column s (depth + 1) x (innerY s y) t with
      | error e => rfl
      | ok whenTrue =>
        cases column s (depth + 1) (x + s.horizontalGap) (innerY s y) f with
        | error e => rfl
        | ok whenFalse => exact congrArg Except.ok (branchScene_moved ..)
  | loop c nodes =>
    have hbody := column_moved d (depth + 1) x (innerY s y) nodes
    rw [node, node]
    split
    · rfl
    · rw [innerY_add, hbody]
      cases column s (depth + 1) x (innerY s y) nodes with
      | error e => rfl
      | ok body => exact congrArg Except.ok (loopScene_moved ..)
termination_by sizeOf n

theorem column_moved (d : Point Rat) (depth : Nat) (x y : Rat) (nodes : List Node) :
    column s depth (x + d.x) (y + d.y) nodes = (column s depth x y nodes).map (.moved d) := by
  cases nodes with
  | nil =>
    rw [column, column]
    rfl
  | cons n ns =>
    have hn := node_moved d depth x y n
    rw [column, column, hn]
    cases node s depth x y n with
    | error e => rfl
    | ok first =>
      have hns := column_moved d depth x first.endY ns
      show (column s depth (x + d.x) (first.endY + d.y) ns).bind _ =
        ((column s depth x first.endY ns).bind _).map _
      rw [hns]
      cases column s depth x first.endY ns with
      | error e => rfl
      | ok rest => exact congrArg Except.ok (columnScene_moved ..)
termination_by sizeOf nodes

end

/-- **Layouts that move.** A sequence that is laid out somewhere else fails alike, or has the same
layout, moved. To move a layout to the right is to lay out its sequence further right. -/
theorem sequence_moved (nodes : List Node) (x y : Rat) (d : Point Rat) (depth : Nat) :
    sequence s nodes (x + d.x) (y + d.y) depth = (sequence s nodes x y depth).map (.moved d) ∧
    sequence s nodes (x + d.x) y depth = (sequence s nodes x y depth).map (.shifted d.x) := by
  have hmoved (d : Point Rat) : sequence s nodes (x + d.x) (y + d.y) depth =
      (sequence s nodes x y depth).map (.moved d) := by
    unfold sequence
    split
    · rfl
    · exact column_moved d depth x y nodes
  refine ⟨hmoved d, ?_⟩
  have hright := hmoved ⟨d.x, 0⟩
  rwa [Scene.moved_right, add_zero] at hright

end Layout

end Flowchart
