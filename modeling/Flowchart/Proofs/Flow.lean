import Flowchart.Flow

/-!
# What a flow tree is made of

* `Node.preorderAll`: the nodes of a tree, each before what is inside it, a true branch before the
  false one. There are `Node.countAll` of them.
* `Node.sequencesAll`: the sequences of a tree, the outermost one first.
* `Node.Within`: how many decisions a node of a tree is inside of. With the depth of the node itself
  that is never more than the depth of the tree (`Node.Within.add_depth_le`).
* `Node.nestingAll`: how many decisions are inside one another.
-/

namespace Flowchart.Node

/-- The kind and the label of a node, without what is inside it. -/
def outline (n : Node) : NodeKind × String := (n.kind, n.label)

/-- The sequences right inside a node. -/
def inner : Node → List (List Node)
  | .step .. => []
  | .branch _ whenTrue whenFalse => [whenTrue, whenFalse]
  | .loop _ body => [body]

mutual

/-- The node and all nodes inside it. -/
def preorder : Node → List Node
  | .step kind label => [.step kind label]
  | .branch condition whenTrue whenFalse =>
    .branch condition whenTrue whenFalse :: (preorderAll whenTrue ++ preorderAll whenFalse)
  | .loop condition body => .loop condition body :: preorderAll body

/-- The nodes of a sequence and all nodes inside them. -/
def preorderAll : List Node → List Node
  | [] => []
  | n :: ns => preorder n ++ preorderAll ns

end

/-- A sequence and the sequences inside its nodes, at any depth. -/
def sequencesAll (nodes : List Node) : List (List Node) :=
  nodes :: (preorderAll nodes).flatMap inner

@[simp] theorem preorderAll_nil : preorderAll [] = [] := rfl

@[simp] theorem preorderAll_cons (n : Node) (ns : List Node) :
    preorderAll (n :: ns) = preorder n ++ preorderAll ns := rfl

@[simp] theorem preorderAll_append (ns ms : List Node) :
    preorderAll (ns ++ ms) = preorderAll ns ++ preorderAll ms := by
  induction ns with
  | nil => rfl
  | cons n ns ih => simp [ih]

mutual

theorem length_preorder (n : Node) : n.preorder.length = n.count := by
  cases n with
  | step => rfl
  | branch _ t f =>
    simp only [preorder, List.length_cons, List.length_append, count, length_preorderAll t,
      length_preorderAll f]
    omega
  | loop _ body =>
    simp only [preorder, List.length_cons, count, length_preorderAll body]
    omega

theorem length_preorderAll (ns : List Node) : (preorderAll ns).length = countAll ns := by
  cases ns with
  | nil => rfl
  | cons n ns =>
    rw [preorderAll_cons, List.length_append, countAll, length_preorder n, length_preorderAll ns]

end

/-! ## Depth -/

theorem depthAll_append (ns ms : List Node) :
    depthAll (ns ++ ms) = max (depthAll ns) (depthAll ms) := by
  induction ns with
  | nil => simp [depthAll]
  | cons n ns ih => rw [List.cons_append, depthAll, ih, depthAll, Nat.max_assoc]

/-! ## Nodes inside decisions -/

mutual

/-- Zero for a step, and one more than the nesting of the sequences inside for a decision, whether
there are nodes in them or not. -/
def nesting : Node → Nat
  | .step .. => 0
  | .branch _ whenTrue whenFalse => 1 + max (nestingAll whenTrue) (nestingAll whenFalse)
  | .loop _ body => 1 + nestingAll body

/-- The greatest nesting of a node of a sequence, zero if there is none. -/
def nestingAll : List Node → Nat
  | [] => 0
  | n :: ns => max (nesting n) (nestingAll ns)

end

/-- The node belongs to the tree of the sequence and lies inside exactly so many decisions of it. -/
def Within : Nat → Node → List Node → Prop
  | 0, n, ns => n ∈ ns
  | k + 1, n, ns => ∃ m ∈ ns, ∃ seq ∈ m.inner, Within k n seq

/-- A decision without any node inside it. -/
def IsBare (n : Node) : Prop := n.kind.isDecision = true ∧ ∀ seq ∈ n.inner, seq = []

variable {k : Nat} {n m : Node} {ns : List Node}

@[simp] theorem within_nil : ¬Within k n [] := by
  cases k <;> simp [Within]

theorem within_cons : Within k n (m :: ns) ↔ Within k n [m] ∨ Within k n ns := by
  cases k <;> simp [Within]

@[simp] theorem within_zero_singleton : Within 0 n [m] ↔ n = m := List.mem_singleton

@[simp] theorem within_succ_singleton :
    Within (k + 1) n [m] ↔ ∃ seq ∈ m.inner, Within k n seq := by
  simp [Within]

theorem depth_pos (n : Node) : 0 < n.depth := by
  cases n <;> simp only [depth] <;> omega

theorem depth_le_depthAll (h : n ∈ ns) : n.depth ≤ depthAll ns := by
  induction ns with
  | nil => cases h
  | cons m ns ih =>
    rw [depthAll]
    rcases List.mem_cons.mp h with rfl | h
    · exact Nat.le_max_left ..
    · exact Nat.le_trans (ih h) (Nat.le_max_right ..)

/-- What is inside a decision is less deep. -/
theorem depthAll_lt_depth {seq : List Node} (h : seq ∈ n.inner) : depthAll seq < n.depth := by
  cases n with
  | step => simp [inner] at h
  | branch _ t f =>
    have h : seq = t ∨ seq = f := by simpa [inner] using h
    rcases h with rfl | rfl <;> rw [depth] <;> omega
  | loop _ body =>
    obtain rfl : seq = body := by simpa [inner] using h
    rw [depth]
    omega

theorem Within.add_depth_le (h : Within k n ns) : k + n.depth ≤ depthAll ns := by
  induction k generalizing ns with
  | zero => simpa using depth_le_depthAll h
  | succ k ih =>
    obtain ⟨m, hm, seq, hseq, h⟩ := h
    have hin := ih h
    have hlt := depthAll_lt_depth hseq
    have hle := depth_le_depthAll hm
    omega

theorem eq_nil_of_depthAll_eq_zero (h : depthAll ns = 0) : ns = [] := by
  cases ns with
  | nil => rfl
  | cons n ns =>
    have hpos := n.depth_pos
    rw [depthAll] at h
    omega

theorem isBare_of_depth_le_one (hn : n.kind.isDecision = true) (h : n.depth ≤ 1) : n.IsBare := by
  refine ⟨hn, fun seq hseq => eq_nil_of_depthAll_eq_zero ?_⟩
  have hlt := depthAll_lt_depth hseq
  omega

end Flowchart.Node

namespace Flowchart.Program

open Node

/-- A start node makes nothing deeper. -/
theorem depth_ofNodes (ns : List Node) : (Program.ofNodes ns).depth = depthAll ns := by
  unfold ofNodes
  split
  · rfl
  · rename_i first rest
    have hpos := first.depth_pos
    split
    · rfl
    · simp only [Program.depth, depthAll, start, Node.depth]
      omega

end Flowchart.Program
