import Flowchart.Proofs.Geometry.Line
import Flowchart.Proofs.Layout.Induction

/-!
# A layout read as a tree

A scene is a list of boxes and a list of edges. A `Figure` is a node as it is drawn: its box and the
edges that belong to it, with the figures of the sequences inside it.

* `Shows`: figures that are drawn for a sequence of nodes, and whose boxes and edges in the order of
  the tree are those of a scene.
* `Layout.drawAll` draws a sequence as figures; what is laid out shows them (`keepsDrawn_shows`).
-/

namespace Flowchart

open Scalar

/-- A node as it is drawn. -/
inductive Figure where
  /-- A step, and the edge to what follows it. -/
  | step (kind : StepKind) (box : Box Rat) (next : Option (Edge Rat))
  /-- An `if`: the way into each of its branches, the branch, and the way out of it. -/
  | branch (box : Box Rat) (trueArm falseArm : Edge Rat) (whenTrue : List Figure)
      (trueMerge : Edge Rat) (whenFalse : List Figure) (falseMerge : Edge Rat)
  /-- A loop: the way into its body, the body, the way back and the way out. -/
  | loop (box : Box Rat) (arm : Edge Rat) (body : List Figure) (back out : Edge Rat)

namespace Figure

/-- The box of the node itself. -/
def box : Figure → Box Rat
  | step _ box _ => box
  | branch box .. => box
  | loop box .. => box

/-- The figure is that of a step. -/
def isStep : Figure → Bool
  | step .. => true
  | branch .. | loop .. => false

/-- The step with the edge to what follows it. -/
def followed (next : Option (Edge Rat)) : Figure → Figure
  | step kind box _ => step kind box next
  | branch box ta fa t tm f fm => branch box ta fa t tm f fm
  | loop box arm body back out => loop box arm body back out

/-- The box is that of the node, and each edge stands for what it should. -/
def Proper : Figure → Prop
  | step kind box next => box.kind = .step kind ∧ ∀ e ∈ next, e.kind = .sequence
  | branch box trueArm falseArm _ trueMerge _ falseMerge => box.kind = .branch ∧
      trueArm.kind = .trueArm ∧ falseArm.kind = .falseArm ∧ trueMerge.kind = .merge ∧
      falseMerge.kind = .merge
  | loop box arm _ back out => box.kind = .loop ∧ arm.kind = .trueArm ∧ back.kind = .loopBack ∧
      out.kind = .loopExit

/-- The sequences right inside the figure. -/
def inner : Figure → List (List Figure)
  | step .. => []
  | branch _ _ _ t _ f _ => [t, f]
  | loop _ _ body _ _ => [body]

mutual

/-- The node that is drawn. -/
def node : Figure → Node
  | step kind box _ => .step kind box.label
  | branch box _ _ t _ f _ => .branch box.label (nodeAll t) (nodeAll f)
  | loop box _ body _ _ => .loop box.label (nodeAll body)

/-- The nodes of a sequence. -/
def nodeAll : List Figure → List Node
  | [] => []
  | f :: fs => f.node :: nodeAll fs

end

mutual

/-- The boxes of the figure, in the order of the tree. -/
def boxes : Figure → List (Box Rat)
  | step _ box _ => [box]
  | branch box _ _ t _ f _ => box :: (boxesAll t ++ boxesAll f)
  | loop box _ body _ _ => box :: boxesAll body

/-- The boxes of a sequence. -/
def boxesAll : List Figure → List (Box Rat)
  | [] => []
  | f :: fs => f.boxes ++ boxesAll fs

end

mutual

/-- The edges of the figure: each way in stands before what it leads to, each way out after it. -/
def edges : Figure → List (Edge Rat)
  | step _ _ next => next.toList
  | branch _ trueArm falseArm t trueMerge f falseMerge =>
    trueArm :: falseArm :: (edgesAll t ++ trueMerge :: (edgesAll f ++ [falseMerge]))
  | loop _ arm body back out => arm :: (edgesAll body ++ [back, out])

/-- The edges of a sequence. -/
def edgesAll : List Figure → List (Edge Rat)
  | [] => []
  | f :: fs => f.edges ++ edgesAll fs

end

mutual

/-- The figure and all figures inside it. -/
def parts : Figure → List Figure
  | step kind box next => [step kind box next]
  | branch box ta fa t tm f fm => branch box ta fa t tm f fm :: (partsAll t ++ partsAll f)
  | loop box arm body back out => loop box arm body back out :: partsAll body

/-- The figures of a sequence and all figures inside them. -/
def partsAll : List Figure → List Figure
  | [] => []
  | f :: fs => f.parts ++ partsAll fs

end

mutual

/-- The figure moved right by `dx`. -/
def shifted (dx : Rat) : Figure → Figure
  | step kind box next => step kind (box.shifted dx) (next.map (.shifted dx))
  | branch box ta fa t tm f fm =>
    branch (box.shifted dx) (ta.shifted dx) (fa.shifted dx) (shiftedAll dx t) (tm.shifted dx)
      (shiftedAll dx f) (fm.shifted dx)
  | loop box arm body back out =>
    loop (box.shifted dx) (arm.shifted dx) (shiftedAll dx body) (back.shifted dx) (out.shifted dx)

/-- A sequence moved right by `dx`. -/
def shiftedAll (dx : Rat) : List Figure → List Figure
  | [] => []
  | f :: fs => f.shifted dx :: shiftedAll dx fs

end

/-! ## Shifts -/

theorem shiftedAll_eq_map (dx : Rat) (fs : List Figure) :
    shiftedAll dx fs = fs.map (shifted dx) := by
  induction fs with
  | nil => rfl
  | cons f fs ih => rw [shiftedAll, ih, List.map_cons]

theorem shiftedAll_eq_nil {dx : Rat} {fs : List Figure} : shiftedAll dx fs = [] ↔ fs = [] := by
  rw [shiftedAll_eq_map, List.map_eq_nil_iff]

mutual

theorem node_shifted (dx : Rat) (f : Figure) : (f.shifted dx).node = f.node := by
  cases f with
  | step => rfl
  | branch => simp [shifted, node, Box.shifted, nodeAll_shifted]
  | loop => simp [shifted, node, Box.shifted, nodeAll_shifted]

theorem nodeAll_shifted (dx : Rat) (fs : List Figure) :
    nodeAll (shiftedAll dx fs) = nodeAll fs := by
  cases fs with
  | nil => rfl
  | cons f fs => simp [shiftedAll, nodeAll, node_shifted dx f, nodeAll_shifted dx fs]

end

mutual

theorem boxes_shifted (dx : Rat) (f : Figure) :
    (f.shifted dx).boxes = f.boxes.map (.shifted dx) := by
  cases f with
  | step => rfl
  | branch => simp [shifted, boxes, boxesAll_shifted]
  | loop => simp [shifted, boxes, boxesAll_shifted]

theorem boxesAll_shifted (dx : Rat) (fs : List Figure) :
    boxesAll (shiftedAll dx fs) = (boxesAll fs).map (.shifted dx) := by
  cases fs with
  | nil => rfl
  | cons f fs => simp [shiftedAll, boxesAll, boxes_shifted dx f, boxesAll_shifted dx fs]

end

mutual

theorem edges_shifted (dx : Rat) (f : Figure) :
    (f.shifted dx).edges = f.edges.map (.shifted dx) := by
  cases f with
  | step kind box next => cases next <;> rfl
  | branch => simp [shifted, edges, edgesAll_shifted]
  | loop => simp [shifted, edges, edgesAll_shifted]

theorem edgesAll_shifted (dx : Rat) (fs : List Figure) :
    edgesAll (shiftedAll dx fs) = (edgesAll fs).map (.shifted dx) := by
  cases fs with
  | nil => rfl
  | cons f fs => simp [shiftedAll, edgesAll, edges_shifted dx f, edgesAll_shifted dx fs]

end

mutual

theorem parts_shifted (dx : Rat) (f : Figure) :
    (f.shifted dx).parts = f.parts.map (shifted dx) := by
  cases f with
  | step => rfl
  | branch => simp [shifted, parts, partsAll_shifted]
  | loop => simp [shifted, parts, partsAll_shifted]

theorem partsAll_shifted (dx : Rat) (fs : List Figure) :
    partsAll (shiftedAll dx fs) = (partsAll fs).map (shifted dx) := by
  cases fs with
  | nil => rfl
  | cons f fs => simp [shiftedAll, partsAll, parts_shifted dx f, partsAll_shifted dx fs]

end

/-! ## Parts of a sequence -/

theorem nodeAll_eq_nil_iff {fs : List Figure} : nodeAll fs = [] ↔ fs = [] := by
  cases fs <;> simp [nodeAll]

theorem boxes_followed (next : Option (Edge Rat)) (f : Figure) :
    (f.followed next).boxes = f.boxes := by
  cases f <;> rfl

theorem node_followed (next : Option (Edge Rat)) (f : Figure) :
    (f.followed next).node = f.node := by
  cases f <;> rfl

theorem mem_parts_self (f : Figure) : f ∈ f.parts := by
  cases f <;> simp [parts]

/-- What a figure keeps when it is shifted holds of all parts of a shifted sequence. -/
theorem forall_partsAll_shifted {P Q : Figure → Prop} {dx : Rat} {fs : List Figure}
    (hshifted : ∀ f, P f → Q (f.shifted dx)) (h : ∀ f ∈ partsAll fs, P f) :
    ∀ f ∈ partsAll (shiftedAll dx fs), Q f := by
  rw [partsAll_shifted, List.forall_mem_map]
  exact fun f hf => hshifted f (h f hf)

/-- What the first figure of a sequence keeps when it is given an edge to the next one holds of all
parts of the sequence. -/
theorem forall_partsAll_followed {P : Figure → Prop} {next : Option (Edge Rat)} {f : Figure}
    {fs : List Figure} (hfollowed : P f → P (f.followed next)) (hf : ∀ g ∈ f.parts, P g)
    (hfs : ∀ g ∈ partsAll fs, P g) : ∀ g ∈ partsAll (f.followed next :: fs), P g := by
  rw [partsAll, List.forall_mem_append]
  refine ⟨?_, hfs⟩
  have hself := hfollowed (hf f (mem_parts_self f))
  cases f with
  | step => simpa [followed, parts] using hself
  | branch | loop => exact hf

theorem Proper.shifted {dx : Rat} {f : Figure} (h : f.Proper) : (f.shifted dx).Proper := by
  cases f with
  | step kind box next =>
    refine ⟨h.1, fun e he => ?_⟩
    obtain ⟨e, hnext, rfl⟩ := Option.mem_map.mp he
    exact h.2 e hnext
  | branch | loop => exact h

end Figure

/-! ## Scenes read as figures -/

open Figure in
/-- The figures are drawn for the nodes, and in the order of the tree their boxes and edges are
those of the scene. -/
structure Shows (nodes : List Node) (p : Scene Rat) (fs : List Figure) : Prop where
  nodes : nodeAll fs = nodes
  boxes : boxesAll fs = p.boxes
  edges : edgesAll fs = p.edges
  proper : ∀ f ∈ partsAll fs, f.Proper

open Figure in
theorem Shows.shifted {nodes : List Node} {p : Scene Rat} {fs : List Figure}
    (h : Shows nodes p fs) (dx : Rat) : Shows nodes (p.shifted dx) (shiftedAll dx fs) where
  nodes := by rw [nodeAll_shifted, h.nodes]
  boxes := by rw [boxesAll_shifted, h.boxes, Scene.shifted]
  edges := by rw [edgesAll_shifted, h.edges, Scene.shifted]
  proper := forall_partsAll_shifted (fun _ hf => hf.shifted) h.proper

namespace Layout

open Figure

variable (s : Settings Rat)

/-- The figure of an `if` with its branches `t` and `f`, of which `whenTrue` and `whenFalse` are the
layouts and `ts` and `fs` the figures. -/
def branchFigure (c : String) (x y : Rat) (t f : List Node) (whenTrue whenFalse : Scene Rat)
    (ts fs : List Figure) : Figure :=
  let box := diamond s .branch c x y
  let shift := falseShift s box.occupied whenTrue whenFalse
  let falseX := x + s.horizontalGap + shift
  let mergeY := greatest whenTrue.endY whenFalse.endY + s.verticalGap
  .branch box (.trueArm x (armY s y) (innerY s y))
    (.falseArm ⟨x + s.decisionHalfWidth, vertexY s y⟩ falseX (innerY s y)) ts
    (.down .merge x (connectY s y t whenTrue) mergeY) (shiftedAll shift fs)
    (.falseMerge falseX (connectY s y f whenFalse) x mergeY)

/-- The figure of a loop with its body `nodes`, of which `body` is the layout and `fs` the
figures. -/
def loopFigure (c : String) (x y : Rat) (nodes : List Node) (body : Scene Rat)
    (fs : List Figure) : Figure :=
  let lanes := loopLanes s x body
  .loop (diamond s .loop c x y) (.trueArm x (armY s y) (innerY s y)) fs
    (.loopBack ⟨x, connectY s y nodes body⟩ lanes.1 ⟨x - s.decisionHalfWidth, vertexY s y⟩)
    (.loopExit ⟨x + s.decisionHalfWidth, vertexY s y⟩ lanes.2 x (body.endY + s.verticalGap))

mutual

/-- A node as a figure, with its layout. -/
def draw (x y : Rat) : Node → Figure × Scene Rat
  | .step kind label => (.step kind (stepBox s kind label x y) none, stepScene s kind label x y)
  | .branch c t f =>
    let (ts, whenTrue) := drawAll x (innerY s y) t
    let (fs, whenFalse) := drawAll (x + s.horizontalGap) (innerY s y) f
    (branchFigure s c x y t f whenTrue whenFalse ts fs,
      branchScene s c x y t f whenTrue whenFalse)
  | .loop c nodes =>
    let (fs, body) := drawAll x (innerY s y) nodes
    (loopFigure s c x y nodes body fs, loopScene s c x y nodes body)

/-- The nodes of a sequence as figures, with their layout. -/
def drawAll (x y : Rat) : List Node → List Figure × Scene Rat
  | [] => ([], .empty y)
  | n :: ns =>
    let (f, first) := draw x y n
    let (fs, rest) := drawAll x first.endY ns
    (f.followed (sequenceEdges s n ns x y first.endY).head? :: fs,
      columnScene s x y n ns first rest)

end

/-- The figures of a sequence in the column `x`, from height `y` down. -/
def figures (x y : Rat) (nodes : List Node) : List Figure := (drawAll s x y nodes).1

variable {s}

/-- A property of drawn nodes and one of drawn sequences that every way of putting figures together
keeps. -/
structure KeepsDrawn (s : Settings Rat) (onNode : Rat → Rat → Node → Scene Rat → Figure → Prop)
    (onColumn : Rat → Rat → List Node → Scene Rat → List Figure → Prop) : Prop where
  step : ∀ x y kind label,
    onNode x y (.step kind label) (stepScene s kind label x y)
      (.step kind (stepBox s kind label x y) none)
  branch : ∀ x y c t f whenTrue whenFalse ts fs, onColumn x (innerY s y) t whenTrue ts →
    onColumn (x + s.horizontalGap) (innerY s y) f whenFalse fs →
    onNode x y (.branch c t f) (branchScene s c x y t f whenTrue whenFalse)
      (branchFigure s c x y t f whenTrue whenFalse ts fs)
  loop : ∀ x y c nodes body fs, onColumn x (innerY s y) nodes body fs →
    onNode x y (.loop c nodes) (loopScene s c x y nodes body) (loopFigure s c x y nodes body fs)
  nil : ∀ x y, onColumn x y [] (.empty y) []
  cons : ∀ x y n ns first rest f fs, onNode x y n first f → onColumn x first.endY ns rest fs →
    onColumn x y (n :: ns) (columnScene s x y n ns first rest)
      (f.followed (sequenceEdges s n ns x y first.endY).head? :: fs)

/-- What figures keep holds of every layout that succeeds and its figures. -/
theorem KeepsDrawn.of_sequence {onNode : Rat → Rat → Node → Scene Rat → Figure → Prop}
    {onColumn : Rat → Rat → List Node → Scene Rat → List Figure → Prop}
    (k : KeepsDrawn s onNode onColumn) {nodes : List Node} {x y : Rat} {depth : Nat}
    {p : Scene Rat} (h : sequence s nodes x y depth = .ok p) :
    onColumn x y nodes p (figures s x y nodes) := by
  have keeps : Keeps s (fun _ x y n p => (draw s x y n).2 = p ∧ onNode x y n p (draw s x y n).1)
      fun _ x y nodes p => (drawAll s x y nodes).2 = p ∧
        onColumn x y nodes p (drawAll s x y nodes).1 := by
    constructor
    case step => exact fun _ x y kind label => ⟨rfl, k.step x y kind label⟩
    case branch =>
      rintro _ x y c t f _ _ ⟨rfl, ht⟩ ⟨rfl, hf⟩
      exact ⟨rfl, k.branch x y c t f _ _ _ _ ht hf⟩
    case loop =>
      rintro _ x y c nodes _ ⟨rfl, hb⟩
      exact ⟨rfl, k.loop x y c nodes _ _ hb⟩
    case nil => exact fun _ x y => ⟨rfl, k.nil x y⟩
    case cons =>
      rintro _ x y n ns _ _ ⟨rfl, hn⟩ ⟨rfl, hs⟩
      exact ⟨rfl, k.cons x y n ns _ _ _ _ hn hs⟩
  exact (keeps.of_sequence h).2

/-! ## A layout shows its figures -/

/-- The figure is drawn for the node, and its boxes and edges are those of the scene. -/
structure ShowsNode (n : Node) (p : Scene Rat) (f : Figure) : Prop where
  node : f.node = n
  boxes : f.boxes = p.boxes
  edges : f.edges = p.edges
  proper : ∀ g ∈ f.parts, g.Proper
  /-- What follows the node is not drawn yet. -/
  lone : f.followed none = f

/-- The edge to what follows a node, if it has one. -/
theorem edges_followed {n : Node} {ns : List Node} {x y nextY : Rat} {p : Scene Rat} {f : Figure}
    (h : ShowsNode n p f) : (f.followed (sequenceEdges s n ns x y nextY).head?).edges =
      p.edges ++ sequenceEdges s n ns x y nextY := by
  obtain ⟨rfl, -, hedges, -, hlone⟩ := h
  rw [← hedges]
  cases f with
  | step kind box next =>
    obtain rfl : none = next := by simpa [followed] using hlone
    cases ns <;> rfl
  | branch | loop => simp [followed, Figure.node, sequenceEdges]

theorem proper_followed {n : Node} {ns : List Node} {x y nextY : Rat} {p : Scene Rat} {f : Figure}
    (h : ShowsNode n p f) (hf : f.Proper) :
    (f.followed (sequenceEdges s n ns x y nextY).head?).Proper := by
  obtain ⟨rfl, -⟩ := h
  cases f with
  | step kind box next =>
    refine ⟨hf.1, fun e he => ?_⟩
    cases ns with
    | nil => cases he
    | cons m ms =>
      obtain rfl : Edge.down .sequence x _ _ = e := Option.some.inj he
      exact Edge.kind_down ..
  | branch | loop => exact hf

theorem keepsDrawn_shows : KeepsDrawn s (fun _ _ n p f => ShowsNode n p f)
    fun _ _ nodes p fs => Shows nodes p fs := by
  constructor
  case step =>
    intro x y kind label
    refine ⟨rfl, rfl, rfl, ?_, rfl⟩
    simp [parts, Figure.Proper, stepBox]
  case branch =>
    intro x y c t f whenTrue whenFalse ts fs ht hf
    have hshift := hf.shifted (falseShift s (diamond s .branch c x y).occupied whenTrue whenFalse)
    refine ⟨?_, ?_, ?_, ?_, rfl⟩
    · simp only [branchFigure, Figure.node, diamond, ht.nodes, nodeAll_shifted, hf.nodes]
    · simp only [branchFigure, boxes, branchScene, ht.boxes, hshift.boxes]
    · simp only [branchFigure, edges, branchScene, ht.edges, hshift.edges]
    · simp only [branchFigure, parts, List.forall_mem_cons, List.forall_mem_append]
      exact ⟨⟨rfl, Edge.kind_down .., rfl, Edge.kind_down .., rfl⟩, ht.proper, hshift.proper⟩
  case loop =>
    intro x y c nodes body fs hb
    refine ⟨?_, ?_, ?_, ?_, rfl⟩
    · simp only [loopFigure, Figure.node, diamond, hb.nodes]
    · simp only [loopFigure, boxes, loopScene, hb.boxes]
    · simp only [loopFigure, edges, loopScene, hb.edges]
    · simp only [loopFigure, parts, List.forall_mem_cons]
      exact ⟨⟨rfl, Edge.kind_down .., rfl, rfl⟩, hb.proper⟩
  case nil => exact fun _ _ => ⟨rfl, rfl, rfl, by simp [partsAll]⟩
  case cons =>
    intro x y n ns first rest f fs hn hs
    refine ⟨?_, ?_, ?_, ?_⟩
    · rw [nodeAll, node_followed, hn.node, hs.nodes]
    · rw [boxesAll, boxes_followed, hn.boxes, hs.boxes, columnScene]
    · rw [edgesAll, edges_followed hn, hs.edges, columnScene]
    · exact forall_partsAll_followed (proper_followed hn) hn.proper hs.proper

end Layout

end Flowchart
