import Flowchart.Layout

/-!
# Induction over laid-out flow trees

* `node_branch_eq_ok`, `node_loop_eq_ok`, `column_cons_eq_ok`: what a layout that succeeds is made
  of. The parts of a column are put together by `columnScene`.
* `whenTrue_edges_subset`, `body_edges_subset`, …: the edges of a part are edges of the whole.
* `Keeps`: a property of laid-out nodes and one of laid-out columns that each way of putting parts
  together keeps. They hold of every layout that succeeds (`Keeps.of_node`, `Keeps.of_sequence`).
* `KeepsBoth`: the same for what holds between two layouts of the same nodes, which may differ in
  their settings, their places and their depths (`KeepsBoth.of_sequence`).
-/

namespace Flowchart.Layout

variable {α : Type} [Scalar α] {s : Settings α} {depth : Nat} {x y : α}

/-! ## One step of a layout -/

/-- A column whose first node `n` is laid out as `first` and whose other nodes `ns` as `rest`. -/
def columnScene (s : Settings α) (x y : α) (n : Node) (ns : List Node) (first rest : Scene α) :
    Scene α where
  boxes := first.boxes ++ rest.boxes
  edges := first.edges ++ sequenceEdges s n ns x y first.endY ++ rest.edges
  endY := rest.endY

theorem node_branch_eq_ok {c : String} {t f : List Node} {p : Scene α} :
    node s depth x y (.branch c t f) = .ok p ↔ depth + 1 ≤ s.maxDepth ∧
      ∃ whenTrue whenFalse,
        column s (depth + 1) x (innerY s y) t = .ok whenTrue ∧
        column s (depth + 1) (x + s.horizontalGap) (innerY s y) f = .ok whenFalse ∧
        p = branchScene s c x y t f whenTrue whenFalse := by
  rw [node]
  by_cases h : s.maxDepth < depth + 1
  · simp [h]; omega
  · simp only [h, ↓reduceIte, Nat.not_lt.mp h, true_and]
    cases column s (depth + 1) x (innerY s y) t with
    | error e => simp [bind, Except.bind]
    | ok whenTrue =>
      cases column s (depth + 1) (x + s.horizontalGap) (innerY s y) f with
      | error e => simp [bind, Except.bind]
      | ok whenFalse => simp [bind, Except.bind, pure, Except.pure, eq_comm]

theorem node_loop_eq_ok {c : String} {nodes : List Node} {p : Scene α} :
    node s depth x y (.loop c nodes) = .ok p ↔ depth + 1 ≤ s.maxDepth ∧
      ∃ body, column s (depth + 1) x (innerY s y) nodes = .ok body ∧
        p = loopScene s c x y nodes body := by
  rw [node]
  by_cases h : s.maxDepth < depth + 1
  · simp [h]; omega
  · simp only [h, ↓reduceIte, Nat.not_lt.mp h, true_and]
    cases column s (depth + 1) x (innerY s y) nodes with
    | error e => simp [bind, Except.bind]
    | ok body => simp [bind, Except.bind, pure, Except.pure, eq_comm]

theorem column_cons_eq_ok {n : Node} {ns : List Node} {p : Scene α} :
    column s depth x y (n :: ns) = .ok p ↔
      ∃ first rest, node s depth x y n = .ok first ∧
        column s depth x first.endY ns = .ok rest ∧ p = columnScene s x y n ns first rest := by
  rw [column]
  cases node s depth x y n with
  | error e => simp [bind, Except.bind]
  | ok first =>
    cases h : column s depth x first.endY ns with
    | error e => simp [bind, Except.bind, h]
    | ok rest => simp [bind, Except.bind, pure, Except.pure, h, columnScene, eq_comm]

theorem sequence_eq_ok {nodes : List Node} {p : Scene α} :
    sequence s nodes x y depth = .ok p ↔
      depth ≤ s.maxDepth ∧ column s depth x y nodes = .ok p := by
  unfold sequence
  by_cases h : s.maxDepth < depth
  · simp only [h, ↓reduceIte, reduceCtorEq, false_iff]
    omega
  · simp only [h, ↓reduceIte, iff_and_self]
    omega

/-! ## Edges of the parts -/

section Edges

variable {c : String} {n : Node} {ns t f nodes : List Node}
  {whenTrue whenFalse body first rest : Scene α}

theorem whenTrue_edges_subset :
    whenTrue.edges ⊆ (branchScene s c x y t f whenTrue whenFalse).edges := by
  intro e he
  simp [branchScene, he]

theorem whenFalse_edges_subset :
    (whenFalse.shifted (falseShift s (diamond s .branch c x y).occupied whenTrue whenFalse)).edges ⊆
      (branchScene s c x y t f whenTrue whenFalse).edges := by
  intro e he
  simp [branchScene, he]

theorem body_edges_subset : body.edges ⊆ (loopScene s c x y nodes body).edges := by
  intro e he
  simp [loopScene, he]

theorem first_edges_subset : first.edges ⊆ (columnScene s x y n ns first rest).edges := by
  intro e he
  simp [columnScene, he]

theorem sequenceEdges_subset :
    sequenceEdges s n ns x y first.endY ⊆ (columnScene s x y n ns first rest).edges := by
  intro e he
  simp [columnScene, he]

theorem rest_edges_subset : rest.edges ⊆ (columnScene s x y n ns first rest).edges := by
  intro e he
  simp [columnScene, he]

end Edges

/-! ## Whole layouts -/

/-- A property of laid-out nodes and one of laid-out columns that every way of putting parts
together keeps. Both may speak of the depth and of the place where the layout began. -/
structure Keeps (s : Settings α) (onNode : Nat → α → α → Node → Scene α → Prop)
    (onColumn : Nat → α → α → List Node → Scene α → Prop) : Prop where
  step : ∀ depth x y kind label,
    onNode depth x y (.step kind label) (stepScene s kind label x y)
  branch : ∀ depth x y c t f whenTrue whenFalse,
    onColumn (depth + 1) x (innerY s y) t whenTrue →
    onColumn (depth + 1) (x + s.horizontalGap) (innerY s y) f whenFalse →
    onNode depth x y (.branch c t f) (branchScene s c x y t f whenTrue whenFalse)
  loop : ∀ depth x y c nodes body, onColumn (depth + 1) x (innerY s y) nodes body →
    onNode depth x y (.loop c nodes) (loopScene s c x y nodes body)
  nil : ∀ depth x y, onColumn depth x y [] (.empty y)
  cons : ∀ depth x y n ns first rest, onNode depth x y n first →
    onColumn depth x first.endY ns rest →
    onColumn depth x y (n :: ns) (columnScene s x y n ns first rest)

variable {onNode : Nat → α → α → Node → Scene α → Prop}
  {onColumn : Nat → α → α → List Node → Scene α → Prop}

mutual

theorem Keeps.of_node (k : Keeps s onNode onColumn) {depth : Nat} {x y : α} {n : Node}
    {p : Scene α} (h : node s depth x y n = .ok p) : onNode depth x y n p := by
  cases n with
  | step kind label =>
    rw [node, Except.ok.injEq] at h
    subst h
    exact k.step ..
  | branch c t f =>
    obtain ⟨-, whenTrue, whenFalse, ht, hf, rfl⟩ := node_branch_eq_ok.mp h
    exact k.branch _ _ _ _ _ _ _ _ (k.of_column ht) (k.of_column hf)
  | loop c nodes =>
    obtain ⟨-, body, hb, rfl⟩ := node_loop_eq_ok.mp h
    exact k.loop _ _ _ _ _ _ (k.of_column hb)
termination_by sizeOf n

theorem Keeps.of_column (k : Keeps s onNode onColumn) {depth : Nat} {x y : α} {nodes : List Node}
    {p : Scene α} (h : column s depth x y nodes = .ok p) : onColumn depth x y nodes p := by
  cases nodes with
  | nil =>
    rw [column, Except.ok.injEq] at h
    subst h
    exact k.nil ..
  | cons n ns =>
    obtain ⟨first, rest, hn, hs, rfl⟩ := column_cons_eq_ok.mp h
    exact k.cons _ _ _ _ _ _ _ (k.of_node hn) (k.of_column hs)
termination_by sizeOf nodes

end

theorem Keeps.of_sequence (k : Keeps s onNode onColumn) {nodes : List Node} {p : Scene α}
    (h : sequence s nodes x y depth = .ok p) : onColumn depth x y nodes p :=
  k.of_column (sequence_eq_ok.mp h).2

/-! ## Two layouts of the same nodes -/

/-- A relation between two layouts of a node and one between two layouts of a sequence that every
way of putting parts together keeps. Both may speak of the two places where the layouts began. -/
structure KeepsBoth (s s' : Settings α)
    (onNode : Point α → Point α → Node → Scene α → Scene α → Prop)
    (onColumn : Point α → Point α → List Node → Scene α → Scene α → Prop) : Prop where
  step : ∀ o o' kind label, onNode o o' (.step kind label) (stepScene s kind label o.x o.y)
    (stepScene s' kind label o'.x o'.y)
  branch : ∀ o o' c t f whenTrue whenTrue' whenFalse whenFalse',
    onColumn ⟨o.x, innerY s o.y⟩ ⟨o'.x, innerY s' o'.y⟩ t whenTrue whenTrue' →
    onColumn ⟨o.x + s.horizontalGap, innerY s o.y⟩ ⟨o'.x + s'.horizontalGap, innerY s' o'.y⟩ f
      whenFalse whenFalse' →
    onNode o o' (.branch c t f) (branchScene s c o.x o.y t f whenTrue whenFalse)
      (branchScene s' c o'.x o'.y t f whenTrue' whenFalse')
  loop : ∀ o o' c nodes body body',
    onColumn ⟨o.x, innerY s o.y⟩ ⟨o'.x, innerY s' o'.y⟩ nodes body body' →
    onNode o o' (.loop c nodes) (loopScene s c o.x o.y nodes body)
      (loopScene s' c o'.x o'.y nodes body')
  nil : ∀ o o', onColumn o o' [] (.empty o.y) (.empty o'.y)
  cons : ∀ o o' n ns first first' rest rest', onNode o o' n first first' →
    onColumn ⟨o.x, first.endY⟩ ⟨o'.x, first'.endY⟩ ns rest rest' →
    onColumn o o' (n :: ns) (columnScene s o.x o.y n ns first rest)
      (columnScene s' o'.x o'.y n ns first' rest')

theorem KeepsBoth.of_sequence {s' : Settings α}
    {onNode : Point α → Point α → Node → Scene α → Scene α → Prop}
    {onColumn : Point α → Point α → List Node → Scene α → Scene α → Prop}
    (k : KeepsBoth s s' onNode onColumn) {nodes : List Node} {x y x' y' : α} {depth depth' : Nat}
    {p p' : Scene α} (h : sequence s nodes x y depth = .ok p)
    (h' : sequence s' nodes x' y' depth' = .ok p') : onColumn ⟨x, y⟩ ⟨x', y'⟩ nodes p p' := by
  -- The first layout is followed step by step, and the second one taken apart to match.
  have keeps : Keeps s
      (fun _ x y n p => ∀ depth' x' y' p', node s' depth' x' y' n = .ok p' →
        onNode ⟨x, y⟩ ⟨x', y'⟩ n p p')
      fun _ x y nodes p => ∀ depth' x' y' p', column s' depth' x' y' nodes = .ok p' →
        onColumn ⟨x, y⟩ ⟨x', y'⟩ nodes p p' := by
    constructor
    case step =>
      intro _ x y kind label depth' x' y' p' h'
      rw [node, Except.ok.injEq] at h'
      subst h'
      exact k.step ⟨x, y⟩ ⟨x', y'⟩ kind label
    case branch =>
      intro _ x y c t f _ _ ht hf depth' x' y' p' h'
      obtain ⟨-, _, _, ht', hf', rfl⟩ := node_branch_eq_ok.mp h'
      exact k.branch ⟨x, y⟩ ⟨x', y'⟩ c t f _ _ _ _ (ht _ _ _ _ ht') (hf _ _ _ _ hf')
    case loop =>
      intro _ x y c nodes _ hb depth' x' y' p' h'
      obtain ⟨-, _, hb', rfl⟩ := node_loop_eq_ok.mp h'
      exact k.loop ⟨x, y⟩ ⟨x', y'⟩ c nodes _ _ (hb _ _ _ _ hb')
    case nil =>
      intro _ x y depth' x' y' p' h'
      rw [column, Except.ok.injEq] at h'
      subst h'
      exact k.nil ⟨x, y⟩ ⟨x', y'⟩
    case cons =>
      intro _ x y n ns _ _ hn hns depth' x' y' p' h'
      obtain ⟨_, _, hn', hns', rfl⟩ := column_cons_eq_ok.mp h'
      exact k.cons ⟨x, y⟩ ⟨x', y'⟩ n ns _ _ _ _ (hn _ _ _ _ hn') (hns _ _ _ _ hns')
  exact keeps.of_sequence h _ _ _ _ (sequence_eq_ok.mp h').2

end Flowchart.Layout
