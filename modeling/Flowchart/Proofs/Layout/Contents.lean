import Flowchart.Proofs.Flow
import Flowchart.Proofs.Layout.Induction

/-!
# What a layout contains

`sequence_contents`: a layout has one box for each node, in the order of the tree, and of each kind
of edges as many as the tree calls for (`edgeCount`). It holds in any arithmetic, so in that of the
charts that are drawn.
-/

namespace Flowchart

/-- The kind and the label of the node that a box is drawn for. -/
def Box.outline {α : Type} (b : Box α) : NodeKind × String := (b.kind, b.label)

/-- The label of the edges of a kind. -/
def EdgeKind.label? : EdgeKind → Option String
  | .trueArm => some "True"
  | .falseArm | .loopExit => some "False"
  | .sequence | .merge | .loopBack => none

namespace Layout

open Node Scalar

/-- Each node of a sequence with the next one. -/
def neighbours (nodes : List Node) : List (Node × Node) := nodes.zip nodes.tail

@[simp] theorem neighbours_nil : neighbours [] = [] := rfl

/-- The number of edges of a kind that a tree calls for. -/
def edgeCount (nodes : List Node) : EdgeKind → Nat
  | .sequence => ((sequencesAll nodes).flatMap neighbours).countP (!·.1.kind.isDecision)
  | .trueArm => (preorderAll nodes).countP (·.kind.isDecision)
  | .falseArm => (preorderAll nodes).countP (·.kind = .branch)
  | .merge => 2 * (preorderAll nodes).countP (·.kind = .branch)
  | .loopBack | .loopExit => (preorderAll nodes).countP (·.kind = .loop)

variable {n : Node} {ns t f nodes : List Node} {c : String} {k : EdgeKind}

/-! ## Counting along the tree -/

@[simp] theorem edgeCount_nil : edgeCount [] k = 0 := by
  cases k <;> rfl

theorem edgeCount_step {kind : StepKind} {label : String} : edgeCount [.step kind label] k = 0 := by
  cases k <;> rfl

/-- The edges that the node of an `if` itself calls for. -/
theorem edgeCount_branch : edgeCount [.branch c t f] k =
    [EdgeKind.trueArm, .falseArm, .merge, .merge].count k + edgeCount t k + edgeCount f k := by
  cases k <;>
    simp [edgeCount, sequencesAll, preorder, Node.inner, neighbours, kind, NodeKind.isDecision] <;>
    omega

/-- The edges that the node of a loop itself calls for. -/
theorem edgeCount_loop : edgeCount [.loop c nodes] k =
    [EdgeKind.trueArm, .loopBack, .loopExit].count k + edgeCount nodes k := by
  cases k <;>
    simp [edgeCount, sequencesAll, preorder, Node.inner, neighbours, kind, NodeKind.isDecision] <;>
    omega

/-- The first node of a sequence has a neighbour if any node comes after it. -/
theorem countP_neighbours_cons : (neighbours (n :: ns)).countP (!·.1.kind.isDecision) =
    (if n.kind.isDecision = false ∧ ns ≠ [] then 1 else 0) +
      (neighbours ns).countP (!·.1.kind.isDecision) := by
  cases ns with
  | nil => simp [neighbours]
  | cons m ms => simp [neighbours, List.countP_cons, Nat.add_comm]

/-- A sequence calls for what its first node and the others call for, and for an edge between them
if the first one is a step. -/
theorem edgeCount_cons : edgeCount (n :: ns) k =
    edgeCount [n] k + (if k = .sequence ∧ n.kind.isDecision = false ∧ ns ≠ [] then 1 else 0) +
      edgeCount ns k := by
  cases k with
  | sequence =>
    simp only [edgeCount, sequencesAll, preorderAll_cons, preorderAll_nil, List.flatMap_append,
      List.flatMap_cons, List.flatMap_nil, List.countP_append, countP_neighbours_cons]
    simp
    omega
  | trueArm | falseArm | loopBack | loopExit => simp [edgeCount]
  | merge => simp [edgeCount, Nat.mul_add]

/-! ## What is asked of a scene -/

variable {α : Type}

/-- The edge has the style and the label that belong to its kind. -/
structure Fits (e : Edge α) : Prop where
  dashed : e.dashed = true ↔ e.kind = .loopBack
  label : e.label = e.kind.label?

/-- The boxes and edges of a scene are those that a sequence of nodes calls for. -/
structure Contains (nodes : List Node) (p : Scene α) : Prop where
  boxes : p.boxes.map Box.outline = (preorderAll nodes).map Node.outline
  edges : ∀ kind, (p.edges.map Edge.kind).count kind = edgeCount nodes kind
  fits : ∀ e ∈ p.edges, Fits e

theorem Contains.nil (y : α) : Contains [] (.empty y) where
  boxes := rfl
  edges _ := by simp [Scene.empty]
  fits := by simp [Scene.empty]

variable [Scalar α] {s : Settings α} {depth : Nat} {x y : α}

/-! ## Connectors -/

theorem Fits.shifted {e : Edge α} (h : Fits e) (dx : α) : Fits (e.shifted dx) :=
  ⟨h.dashed, h.label⟩

theorem Fits.down (x a b : α) {kind : EdgeKind} (hkind : kind ≠ .loopBack)
    (hlabel : kind.label? = none) : Fits (Edge.down kind x a b) :=
  ⟨by simpa using hkind, by simpa using hlabel.symm⟩

theorem Fits.trueArm (x a b : α) : Fits (Edge.trueArm x a b) :=
  ⟨by simp [Edge.trueArm], by simp [Edge.trueArm, EdgeKind.label?, Edge.trueLabel]⟩

/-- The edge between two neighbours. -/
theorem count_sequenceEdges {nextY : α} :
    ((sequenceEdges s n ns x y nextY).map Edge.kind).count k =
      if k = .sequence ∧ n.kind.isDecision = false ∧ ns ≠ [] then 1 else 0 := by
  cases n with
  | step kind label =>
    cases ns with
    | nil => simp [sequenceEdges]
    | cons m ms =>
      simp only [sequenceEdges, List.map_cons, List.map_nil, Edge.kind_down]
      cases k <;> simp [Node.kind, NodeKind.isDecision]
  | branch | loop => simp [sequenceEdges, Node.kind, NodeKind.isDecision]

theorem fits_sequenceEdges {nextY : α} : ∀ e ∈ sequenceEdges s n ns x y nextY, Fits e := by
  cases n with
  | step kind label =>
    cases ns with
    | nil => simp [sequenceEdges]
    | cons m ms => simpa [sequenceEdges] using Fits.down _ _ _ (by simp) rfl
  | branch | loop => simp [sequenceEdges]

/-! ## Parts of a layout -/

theorem Contains.shifted {p : Scene α} (h : Contains nodes p) (dx : α) :
    Contains nodes (p.shifted dx) where
  boxes := by
    rw [← h.boxes, Scene.shifted, List.map_map]
    rfl
  edges kind := by
    rw [← h.edges, Scene.shifted, List.map_map]
    rfl
  fits := by
    rw [Scene.shifted, List.forall_mem_map]
    exact fun e he => (h.fits e he).shifted dx

theorem Contains.step (kind : StepKind) (label : String) :
    Contains [.step kind label] (stepScene s kind label x y) where
  boxes := rfl
  edges _ := edgeCount_step.symm
  fits := by simp [stepScene]

theorem Contains.branch {whenTrue whenFalse : Scene α} (ht : Contains t whenTrue)
    (hf : Contains f whenFalse) :
    Contains [.branch c t f] (branchScene s c x y t f whenTrue whenFalse) := by
  have hs := hf.shifted (falseShift s (diamond s .branch c x y).occupied whenTrue whenFalse)
  constructor
  case boxes =>
    simp only [branchScene, List.map_cons, List.map_append, ht.boxes, hs.boxes, preorderAll_cons,
      preorderAll_nil, preorder, List.append_nil]
    rfl
  case edges =>
    intro kind
    rw [edgeCount_branch, ← ht.edges, ← hs.edges]
    simp only [branchScene, List.map_cons, List.map_append, List.map_nil, List.count_cons,
      List.count_append, List.count_nil, Edge.trueArm, Edge.falseArm, Edge.kind_down,
      Edge.falseMerge]
    omega
  case fits =>
    simp only [branchScene, List.forall_mem_cons, List.forall_mem_append]
    refine ⟨.trueArm .., ⟨by simp [Edge.falseArm], rfl⟩, ht.fits, .down _ _ _ (by simp) rfl,
      hs.fits, ⟨by simp [Edge.falseMerge], rfl⟩, by simp⟩

theorem Contains.loop {body : Scene α} (h : Contains nodes body) :
    Contains [.loop c nodes] (loopScene s c x y nodes body) := by
  constructor
  case boxes =>
    simp only [loopScene, List.map_cons, h.boxes, preorderAll_cons, preorderAll_nil, preorder,
      List.append_nil]
    rfl
  case edges =>
    intro kind
    rw [edgeCount_loop, ← h.edges]
    simp only [loopScene, List.map_cons, List.map_append, List.map_nil, List.count_cons,
      List.count_append, List.count_nil, Edge.trueArm, Edge.kind_down, Edge.loopBack,
      Edge.loopExit]
    omega
  case fits =>
    simp only [loopScene, List.forall_mem_cons, List.forall_mem_append]
    exact ⟨.trueArm .., h.fits, ⟨by simp [Edge.loopBack], rfl⟩, ⟨by simp [Edge.loopExit], rfl⟩,
      by simp⟩

theorem Contains.cons {first rest : Scene α} (hf : Contains [n] first) (hr : Contains ns rest) :
    Contains (n :: ns) (columnScene s x y n ns first rest) := by
  constructor
  case boxes =>
    simp only [columnScene, List.map_append, hf.boxes, hr.boxes, preorderAll_cons,
      preorderAll_nil, List.append_nil]
  case edges =>
    intro kind
    rw [edgeCount_cons, ← hf.edges, ← hr.edges]
    simp only [columnScene, List.map_append, List.count_append, count_sequenceEdges]
  case fits =>
    simp only [columnScene, List.forall_mem_append]
    exact ⟨⟨hf.fits, fits_sequenceEdges⟩, hr.fits⟩

/-! ## Whole layouts -/

theorem keeps_contains :
    Keeps s (fun _ _ _ n p => Contains [n] p) fun _ _ _ nodes p => Contains nodes p where
  step _ _ _ := Contains.step
  branch _ _ _ _ _ _ _ _ := Contains.branch
  loop _ _ _ _ _ _ := Contains.loop
  nil _ _ := Contains.nil
  cons _ _ _ _ _ _ _ := Contains.cons

/-- **Contents.** The boxes of a layout are those of the nodes in depth-first order, and the edges
are as many of each kind as the tree calls for. The ways back of loops are dashed and no other edge
is, and each edge has the label of its kind. -/
theorem sequence_contents {p : Scene α} (h : sequence s nodes x y depth = .ok p) :
    p.boxes.map Box.outline = (preorderAll nodes).map Node.outline ∧
    p.boxes.length = countAll nodes ∧
    (∀ kind, (p.edges.map Edge.kind).count kind = edgeCount nodes kind) ∧
    ∀ e ∈ p.edges, (e.dashed = true ↔ e.kind = .loopBack) ∧ e.label = e.kind.label? := by
  have hp := keeps_contains.of_sequence h
  refine ⟨hp.boxes, ?_, hp.edges, fun e he => ⟨(hp.fits e he).dashed, (hp.fits e he).label⟩⟩
  have hlength := congrArg List.length hp.boxes
  rwa [List.length_map, List.length_map, length_preorderAll] at hlength

/-- What the chart of an `if` with a loop in it contains, in the arithmetic of charts. -/
theorem loop_in_branch_contents :
    let nodes : List Node := [.start, .branch "a" [.loop "b" [.stop, .stop]] [], .stop]
    ∃ p, sequence (.default : Settings Float32) nodes 400 50 0 = .ok p ∧ p.boxes.length = 6 ∧
      p.boxes.map Box.outline = (preorderAll nodes).map Node.outline ∧
      (p.edges.map Edge.kind).count .sequence = 2 ∧ (p.edges.map Edge.kind).count .merge = 2 := by
  intro nodes
  have h : sequence (.default : Settings Float32) nodes 400 50 0 = .ok _ := rfl
  obtain ⟨hboxes, hlength, hedges, -⟩ := sequence_contents h
  exact ⟨_, h, hlength, hboxes, hedges .sequence, hedges .merge⟩

end Layout

end Flowchart
