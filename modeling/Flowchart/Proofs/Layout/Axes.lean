import Flowchart.Proofs.Layout.Induction
import Flowchart.Proofs.Scalar

/-!
# Across and down

`sequence_axes`: where a layout puts things across a chart does not depend on the distances down the
chart, and the other way round. It holds in the arithmetic of the charts that are drawn, rounding
and infinite values included.

* `AlikeDown`, `AlikeAcross`: two scenes have the same heights, or the same columns and widths.
* Heights are never measured. Columns are, where a false branch is shifted and where the lanes of a
  loop are put, but only across: rectangles that are alike across are merged into such rectangles
  (`bounds?_across`).
* An edge straight down a column has corners of its own where the column is not a number. That is
  the only place where a column makes a difference to heights (`ys_down`).
-/

namespace Flowchart

open Scalar

variable {α : Type}

/-! ## One axis of a drawing -/

/-- The x coordinates of the corners of the edge. -/
def Edge.xs (e : Edge α) : List α := e.points.map Point.x

/-- The y coordinates of the corners of the edge. -/
def Edge.ys (e : Edge α) : List α := e.points.map Point.y

/-- The column of the box and the width of what it occupies. -/
def Box.across (b : Box α) : α × α := (b.centerX, b.footprint.width)

/-- The left and the right side. -/
def Bounds.across (b : Bounds α) : α × α := (b.minX, b.maxX)

namespace Edge

variable (kind : EdgeKind) (x a b lane dx : α) (p q : Point α) (e : Edge α)

theorem xs_falseArm : (falseArm p x b).xs = [p.x, x, x] := rfl

theorem ys_falseArm : (falseArm p x b).ys = [p.y, p.y, b] := rfl

theorem xs_falseMerge : (falseMerge lane a x b).xs = [lane, lane, x] := rfl

theorem ys_falseMerge : (falseMerge lane a x b).ys = [a, b, b] := rfl

theorem xs_loopBack : (loopBack p lane q).xs = [p.x, lane, lane, q.x] := rfl

theorem ys_loopBack : (loopBack p lane q).ys = [p.y, p.y, q.y, q.y] := rfl

theorem xs_loopExit : (loopExit p lane x b).xs = [p.x, lane, lane, x] := rfl

theorem ys_loopExit : (loopExit p lane x b).ys = [p.y, p.y, b, b] := rfl

variable [Scalar α]

theorem x_source_down : (down kind x a b).source.x = x := by
  unfold down route
  split <;> rfl

theorem xs_down : (down kind x a b).xs = if x == x then [x, x] else [x, x, x, x] := by
  unfold down route Point.isAligned
  split <;> rfl

theorem ys_down {x : α} (hx : IsNumber x) : (down kind x a b).ys = [a, b] := by
  have h : (Point.mk x a).isAligned ⟨x, b⟩ = true := hx
  rw [down, route, if_pos h]
  rfl

theorem xs_trueArm : (trueArm x a b).xs = if x == x then [x, x] else [x, x, x, x] :=
  xs_down .trueArm x a b

theorem ys_trueArm {x : α} (hx : IsNumber x) : (trueArm x a b).ys = [a, b] :=
  ys_down .trueArm a b hx

theorem xs_shifted : (e.shifted dx).xs = e.xs.map (· + dx) := by
  simp [xs, points, shifted, Point.shifted, Point.add]

theorem ys_shifted : (e.shifted dx).ys = e.ys.map (· + zero) := by
  simp [ys, points, shifted, Point.shifted, Point.add]

end Edge

/-! ## Rectangles seen from above -/

section Bounds

variable [Scalar α]

/-- The sides of the least rectangle that holds two others. -/
def Bounds.mergeSides (a b : α × α) : α × α := (least a.1 b.1, greatest a.2 b.2)

/-- The sides of the least rectangle that holds points in the given columns. -/
def Bounds.sidesOf : List α → α × α
  | [] => (zero, zero)
  | x :: xs => (x :: xs).foldl (fun sides x => mergeSides sides (x, x)) (x, x)

theorem Bounds.across_foldl (bs : List (Bounds α)) (b : Bounds α) :
    (bs.foldl merge b).across = (bs.map across).foldl mergeSides b.across := by
  rw [List.foldl_map]
  exact (List.foldl_hom Bounds.across fun _ _ => rfl).symm

/-- Rectangles that are alike across have the same sides together. -/
theorem Bounds.mergeAll?_across {bs bs' : List (Bounds α)} (h : bs.map across = bs'.map across) :
    (mergeAll? bs).map across = (mergeAll? bs').map across := by
  cases bs with
  | nil =>
    cases bs' with
    | nil => rfl
    | cons => cases h
  | cons b bs =>
    cases bs' with
    | nil => cases h
    | cons b' bs' =>
      obtain ⟨hb, hbs⟩ := List.cons.inj h
      simp only [mergeAll?, Option.map_some, across_foldl, hb, hbs]

theorem Edge.across_bounds (e : Edge α) : e.bounds.across = Bounds.sidesOf e.xs := by
  show _ = (e.points.map Point.x).foldl _ (Bounds.ofPoint e.source).across
  rw [List.foldl_map]
  exact (List.foldl_hom Bounds.across fun _ _ => rfl).symm

theorem Box.across_occupied (b : Box α) : b.occupied.across =
    (b.across.1 - half b.across.2, b.across.1 + half b.across.2) := rfl

end Bounds

namespace Layout

variable [Scalar α] {s s' : Settings α} {x x' y y' : α}

/-- The settings agree in the distances that run down a chart. -/
structure SameHeights (s s' : Settings α) : Prop where
  nodeHeight : s.nodeHeight = s'.nodeHeight
  verticalGap : s.verticalGap = s'.verticalGap
  decisionHeight : s.decisionHeight = s'.decisionHeight
  decisionSize : s.decisionSize = s'.decisionSize

/-- The settings agree in the distances that run across a chart. -/
structure SameWidths (s s' : Settings α) : Prop where
  nodeWidth : s.nodeWidth = s'.nodeWidth
  horizontalGap : s.horizontalGap = s'.horizontalGap
  decisionHalfWidth : s.decisionHalfWidth = s'.decisionHalfWidth
  loopReturnOffset : s.loopReturnOffset = s'.loopReturnOffset
  loopExitOffset : s.loopExitOffset = s'.loopExitOffset
  laneClearance : s.laneClearance = s'.laneClearance

/-! ## Heights -/

/-- Boxes, edges and ends of two scenes have the same heights. -/
structure AlikeDown (p p' : Scene α) : Prop where
  boxes : p.boxes.map Box.topY = p'.boxes.map Box.topY
  edges : p.edges.map Edge.ys = p'.edges.map Edge.ys
  endY : p.endY = p'.endY

/-- Each edge of the scene begins in a column that is a number. -/
def Numeric (p : Scene α) : Prop := ∀ e ∈ p.edges, IsNumber e.source.x

namespace Numeric

variable {c : String} {t f nodes ns : List Node} {n : Node} {p whenTrue whenFalse body first rest :
  Scene α}

theorem of_shifted [Strict α] {dx : α} (h : Numeric (p.shifted dx)) : Numeric p :=
  fun _ he => Strict.isNumber_of_add (h _ (List.mem_map_of_mem he))

theorem of_branch [Strict α] (h : Numeric (branchScene s c x y t f whenTrue whenFalse)) :
    IsNumber x ∧ Numeric whenTrue ∧ Numeric whenFalse := by
  simp only [Numeric, branchScene, List.forall_mem_cons, List.forall_mem_append] at h
  obtain ⟨harm, -, ht, -, hf, -⟩ := h
  exact ⟨Edge.x_source_down .trueArm x _ _ ▸ harm, ht, of_shifted hf⟩

theorem of_loop (h : Numeric (loopScene s c x y nodes body)) : IsNumber x ∧ Numeric body := by
  simp only [Numeric, loopScene, List.forall_mem_cons, List.forall_mem_append] at h
  obtain ⟨harm, hb, -⟩ := h
  exact ⟨Edge.x_source_down .trueArm x _ _ ▸ harm, hb⟩

theorem of_cons (h : Numeric (columnScene s x y n ns first rest)) :
    Numeric first ∧ (∀ e ∈ sequenceEdges s n ns x y first.endY, IsNumber e.source.x) ∧
      Numeric rest := by
  simp only [Numeric, columnScene, List.forall_mem_append] at h
  exact ⟨h.1.1, h.1.2, h.2⟩

end Numeric

namespace SameHeights

theorem armY_eq (hs : SameHeights s s') : armY s y = armY s' y := by
  rw [armY, armY, hs.decisionHeight]

theorem innerY_eq (hs : SameHeights s s') : innerY s y = innerY s' y := by
  rw [innerY, innerY, hs.armY_eq, hs.verticalGap]

theorem vertexY_eq (hs : SameHeights s s') : vertexY s y = vertexY s' y := by
  rw [vertexY, vertexY, hs.decisionHeight]

theorem connectY_eq (hs : SameHeights s s') {nodes : List Node} {p p' : Scene α}
    (h : AlikeDown p p') : connectY s y nodes p = connectY s' y nodes p' := by
  rw [connectY, connectY, hs.innerY_eq, h.endY, hs.verticalGap]

theorem topY_diamond (hs : SameHeights s s') (kind : NodeKind) (c : String) :
    (diamond s kind c x y).topY = (diamond s' kind c x' y).topY := by
  rw [diamond, diamond, hs.decisionHeight, hs.decisionSize]

end SameHeights

namespace AlikeDown

variable {c : String} {t f nodes ns : List Node} {n : Node} {p p' whenTrue whenTrue' whenFalse
  whenFalse' body body' first first' rest rest' : Scene α}

theorem shifted (h : AlikeDown p p') (dx dx' : α) :
    AlikeDown (p.shifted dx) (p'.shifted dx') := by
  have hys (dx : α) (p : Scene α) : (p.shifted dx).edges.map Edge.ys =
      (p.edges.map Edge.ys).map (List.map (· + zero)) := by
    simp [Scene.shifted, Edge.ys_shifted]
  refine ⟨?_, by rw [hys, hys, h.edges], h.endY⟩
  simp only [Scene.shifted, List.map_map]
  exact h.boxes

theorem branch (hs : SameHeights s s') (hx : IsNumber x) (hx' : IsNumber x')
    (ht : AlikeDown whenTrue whenTrue') (hf : AlikeDown whenFalse whenFalse') :
    AlikeDown (branchScene s c x y t f whenTrue whenFalse)
      (branchScene s' c x' y t f whenTrue' whenFalse') := by
  -- The false branches may be shifted by different distances, which no height shows.
  have hshift := hf.shifted (falseShift s (diamond s .branch c x y).occupied whenTrue whenFalse)
    (falseShift s' (diamond s' .branch c x' y).occupied whenTrue' whenFalse')
  constructor
  case boxes =>
    simp only [branchScene, List.map_cons, List.map_append, ht.boxes, hshift.boxes]
    rw [hs.topY_diamond]
  case edges =>
    simp only [branchScene, List.map_cons, List.map_append, List.map_nil, ht.edges, hshift.edges,
      Edge.ys_trueArm _ _ hx, Edge.ys_trueArm _ _ hx', Edge.ys_falseArm, Edge.ys_down _ _ _ hx,
      Edge.ys_down _ _ _ hx', Edge.ys_falseMerge, hs.armY_eq, hs.innerY_eq, hs.vertexY_eq,
      hs.connectY_eq ht, hs.connectY_eq hf, hs.verticalGap, ht.endY, hf.endY]
  case endY => simp only [branchScene, ht.endY, hf.endY, hs.verticalGap]

theorem loop (hs : SameHeights s s') (hx : IsNumber x) (hx' : IsNumber x')
    (hb : AlikeDown body body') :
    AlikeDown (loopScene s c x y nodes body) (loopScene s' c x' y nodes body') := by
  constructor
  case boxes =>
    simp only [loopScene, List.map_cons, hb.boxes]
    rw [hs.topY_diamond]
  case edges =>
    simp only [loopScene, List.map_cons, List.map_append, List.map_nil, hb.edges,
      Edge.ys_trueArm _ _ hx, Edge.ys_trueArm _ _ hx', Edge.ys_loopBack, Edge.ys_loopExit,
      hs.armY_eq, hs.innerY_eq, hs.vertexY_eq, hs.connectY_eq hb, hs.verticalGap, hb.endY]
  case endY => simp only [loopScene, hb.endY, hs.verticalGap]

/-- The edge to what follows a node. -/
theorem sequenceEdges (hs : SameHeights s s') {nextY : α}
    (hx : ∀ e ∈ Layout.sequenceEdges s n ns x y nextY, IsNumber e.source.x)
    (hx' : ∀ e ∈ Layout.sequenceEdges s' n ns x' y nextY, IsNumber e.source.x) :
    (Layout.sequenceEdges s n ns x y nextY).map Edge.ys =
      (Layout.sequenceEdges s' n ns x' y nextY).map Edge.ys := by
  cases n with
  | step kind label =>
    cases ns with
    | nil => rfl
    | cons m ms =>
      simp only [Layout.sequenceEdges, List.forall_mem_singleton, Edge.x_source_down] at hx hx'
      simp only [Layout.sequenceEdges, List.map_cons, List.map_nil, Edge.ys_down _ _ _ hx,
        Edge.ys_down _ _ _ hx', hs.nodeHeight]
  | branch | loop => rfl

theorem step (hs : SameHeights s s') (kind : StepKind) (label : String) :
    AlikeDown (stepScene s kind label x y) (stepScene s' kind label x' y) where
  boxes := rfl
  edges := rfl
  endY := by simp only [stepScene, hs.nodeHeight, hs.verticalGap]

theorem cons (hs : SameHeights s s')
    (hx : Numeric (columnScene s x y n ns first rest))
    (hx' : Numeric (columnScene s' x' y n ns first' rest'))
    (hf : AlikeDown first first') (hr : AlikeDown rest rest') :
    AlikeDown (columnScene s x y n ns first rest) (columnScene s' x' y n ns first' rest') := by
  have hedges := hx.of_cons.2.1
  rw [hf.endY] at hedges
  constructor
  case boxes => simp only [columnScene, List.map_append, hf.boxes, hr.boxes]
  case edges =>
    simp only [columnScene, List.map_append, hf.edges, hr.edges, hf.endY,
      sequenceEdges hs hedges hx'.of_cons.2.1]
  case endY => exact hr.endY

end AlikeDown

theorem keepsBoth_down [Strict α] (hs : SameHeights s s') :
    KeepsBoth s s'
      (fun o o' _ p p' => o.y = o'.y → Numeric p → Numeric p' → AlikeDown p p')
      fun o o' _ p p' => o.y = o'.y → Numeric p → Numeric p' → AlikeDown p p' := by
  constructor
  case step =>
    rintro ⟨x, y⟩ ⟨x', _⟩ kind label rfl - -
    exact .step hs kind label
  case branch =>
    rintro ⟨x, y⟩ ⟨x', _⟩ c t f _ _ _ _ ht hf rfl hp hp'
    obtain ⟨hx, htrue, hfalse⟩ := hp.of_branch
    obtain ⟨hx', htrue', hfalse'⟩ := hp'.of_branch
    exact .branch hs hx hx' (ht hs.innerY_eq htrue htrue') (hf hs.innerY_eq hfalse hfalse')
  case loop =>
    rintro ⟨x, y⟩ ⟨x', _⟩ c nodes _ _ hbody rfl hp hp'
    obtain ⟨hx, hb⟩ := hp.of_loop
    obtain ⟨hx', hb'⟩ := hp'.of_loop
    exact .loop hs hx hx' (hbody hs.innerY_eq hb hb')
  case nil =>
    rintro ⟨x, y⟩ ⟨x', _⟩ rfl - -
    exact ⟨rfl, rfl, rfl⟩
  case cons =>
    rintro ⟨x, y⟩ ⟨x', _⟩ n ns _ _ _ _ hn hns rfl hp hp'
    have hfirst := hn rfl hp.of_cons.1 hp'.of_cons.1
    exact .cons hs hp hp' hfirst (hns hfirst.endY hp.of_cons.2.2 hp'.of_cons.2.2)

/-! ## Columns -/

/-- Boxes and edges of two scenes have the same columns, and the boxes the same widths. -/
structure AlikeAcross (p p' : Scene α) : Prop where
  boxes : p.boxes.map Box.across = p'.boxes.map Box.across
  edges : p.edges.map Edge.xs = p'.edges.map Edge.xs

theorem AlikeAcross.bounds?_across {p p' : Scene α} (h : AlikeAcross p p') :
    p.bounds?.map Bounds.across = p'.bounds?.map Bounds.across := by
  have hboxes (p : Scene α) : (p.boxes.map Box.occupied).map Bounds.across =
      (p.boxes.map Box.across).map fun b => (b.1 - half b.2, b.1 + half b.2) := by
    rw [List.map_map, List.map_map]
    rfl
  have hedges (p : Scene α) : (p.edges.map Edge.bounds).map Bounds.across =
      (p.edges.map Edge.xs).map Bounds.sidesOf := by
    rw [List.map_map, List.map_map]
    exact List.map_congr_left fun e _ => e.across_bounds
  apply Bounds.mergeAll?_across
  rw [List.map_append, List.map_append, hboxes, hboxes, hedges, hedges, h.boxes, h.edges]

/-- Two scenes that are alike across are both empty, or have the same left and right sides. -/
theorem AlikeAcross.bounds?_cases {p p' : Scene α} (h : AlikeAcross p p') :
    p.bounds? = none ∧ p'.bounds? = none ∨ ∃ b b', p.bounds? = some b ∧ p'.bounds? = some b' ∧
      b.minX = b'.minX ∧ b.maxX = b'.maxX := by
  have hmap := h.bounds?_across
  cases hp : p.bounds? with
  | none =>
    rw [hp, Option.map_none, eq_comm, Option.map_eq_none_iff] at hmap
    exact .inl ⟨rfl, hmap⟩
  | some b =>
    rw [hp, Option.map_some, eq_comm, Option.map_eq_some_iff] at hmap
    obtain ⟨b', hp', hb⟩ := hmap
    obtain ⟨hmin, hmax⟩ := Prod.mk.inj hb
    exact .inr ⟨b, b', rfl, hp', hmin.symm, hmax.symm⟩

namespace SameWidths

theorem across_diamond (hs : SameWidths s s') (kind : NodeKind) (c : String) :
    (diamond s kind c x y).across = (diamond s' kind c x y').across := by
  simp only [Box.across, diamond, hs.decisionHalfWidth]

theorem falseShift_eq (hs : SameWidths s s') {c : String}
    {whenTrue whenTrue' whenFalse whenFalse' : Scene α} (ht : AlikeAcross whenTrue whenTrue')
    (hf : AlikeAcross whenFalse whenFalse') :
    falseShift s (diamond s .branch c x y).occupied whenTrue whenFalse =
      falseShift s' (diamond s' .branch c x y').occupied whenTrue' whenFalse' := by
  have hdiamond : (diamond s .branch c x y).occupied.maxX =
      (diamond s' .branch c x y').occupied.maxX := by
    have h := Box.across_occupied (diamond s .branch c x y)
    rw [hs.across_diamond] at h
    exact congrArg Prod.snd h
  obtain ⟨hf, hf'⟩ | ⟨fb, fb', hf, hf', hmin, -⟩ := hf.bounds?_cases
  · simp only [falseShift, hf, hf']
  · obtain ⟨ht, ht'⟩ | ⟨tb, tb', ht, ht', -, hmax⟩ := ht.bounds?_cases
    · simp only [falseShift, hf, hf', ht, ht', hdiamond, hmin, hs.laneClearance]
    · simp only [falseShift, hf, hf', ht, ht', hdiamond, hmin, hmax, hs.laneClearance]

theorem loopLanes_eq (hs : SameWidths s s') {body body' : Scene α} (hb : AlikeAcross body body') :
    loopLanes s x body = loopLanes s' x body' := by
  obtain ⟨hb, hb'⟩ | ⟨b, b', hb, hb', hmin, hmax⟩ := hb.bounds?_cases
  · simp only [loopLanes, hb, hb', hs.loopReturnOffset, hs.loopExitOffset]
  · simp only [loopLanes, hb, hb', hmin, hmax, hs.loopReturnOffset, hs.loopExitOffset,
      hs.laneClearance]

end SameWidths

namespace AlikeAcross

variable {c : String} {t f nodes ns : List Node} {n : Node} {p p' whenTrue whenTrue' whenFalse
  whenFalse' body body' first first' rest rest' : Scene α}

theorem shifted (h : AlikeAcross p p') (dx : α) : AlikeAcross (p.shifted dx) (p'.shifted dx) := by
  have hboxes (p : Scene α) : (p.shifted dx).boxes.map Box.across =
      (p.boxes.map Box.across).map fun b => (b.1 + dx, b.2) := by
    rw [Scene.shifted, List.map_map, List.map_map]
    rfl
  have hedges (p : Scene α) : (p.shifted dx).edges.map Edge.xs =
      (p.edges.map Edge.xs).map (List.map (· + dx)) := by
    rw [Scene.shifted, List.map_map, List.map_map]
    exact List.map_congr_left fun e _ => e.xs_shifted dx
  exact ⟨by rw [hboxes, hboxes, h.boxes], by rw [hedges, hedges, h.edges]⟩

theorem step (hs : SameWidths s s') (kind : StepKind) (label : String) :
    AlikeAcross (stepScene s kind label x y) (stepScene s' kind label x y') where
  boxes := by simp only [stepScene, stepBox, List.map_cons, List.map_nil, Box.across, hs.nodeWidth]
  edges := rfl

theorem branch (hs : SameWidths s s') (ht : AlikeAcross whenTrue whenTrue')
    (hf : AlikeAcross whenFalse whenFalse') :
    AlikeAcross (branchScene s c x y t f whenTrue whenFalse)
      (branchScene s' c x y' t f whenTrue' whenFalse') := by
  -- Here both false branches are shifted by the same distance, measured across only.
  have hshift : falseShift s (diamond s .branch c x y).occupied whenTrue whenFalse =
      falseShift s' (diamond s' .branch c x y').occupied whenTrue' whenFalse' :=
    hs.falseShift_eq ht hf
  have hmoved :=
    hf.shifted (falseShift s (diamond s .branch c x y).occupied whenTrue whenFalse)
  constructor
  case boxes =>
    simp only [branchScene, List.map_cons, List.map_append, ht.boxes, ← hshift, hmoved.boxes]
    rw [hs.across_diamond]
  case edges =>
    simp only [branchScene, List.map_cons, List.map_append, List.map_nil, ht.edges, ← hshift,
      hmoved.edges, Edge.xs_trueArm, Edge.xs_falseArm, Edge.xs_down, Edge.xs_falseMerge,
      hs.decisionHalfWidth, hs.horizontalGap]

theorem loop (hs : SameWidths s s') (hb : AlikeAcross body body') :
    AlikeAcross (loopScene s c x y nodes body) (loopScene s' c x y' nodes body') := by
  constructor
  case boxes =>
    simp only [loopScene, List.map_cons, hb.boxes]
    rw [hs.across_diamond]
  case edges =>
    simp only [loopScene, List.map_cons, List.map_append, List.map_nil, hb.edges, Edge.xs_trueArm,
      Edge.xs_loopBack, Edge.xs_loopExit, hs.loopLanes_eq hb, hs.decisionHalfWidth]

theorem sequenceEdges (s s' : Settings α) (y y' nextY nextY' : α) :
    (Layout.sequenceEdges s n ns x y nextY).map Edge.xs =
      (Layout.sequenceEdges s' n ns x y' nextY').map Edge.xs := by
  cases n with
  | step kind label =>
    cases ns with
    | nil => rfl
    | cons m ms => simp only [Layout.sequenceEdges, List.map_cons, List.map_nil, Edge.xs_down]
  | branch | loop => rfl

theorem cons (hf : AlikeAcross first first') (hr : AlikeAcross rest rest') :
    AlikeAcross (columnScene s x y n ns first rest) (columnScene s' x y' n ns first' rest') where
  boxes := by simp only [columnScene, List.map_append, hf.boxes, hr.boxes]
  edges := by
    simp only [columnScene, List.map_append, hf.edges, hr.edges,
      sequenceEdges s s' y y' first.endY first'.endY]

end AlikeAcross

theorem keepsBoth_across (hs : SameWidths s s') :
    KeepsBoth s s' (fun o o' _ p p' => o.x = o'.x → AlikeAcross p p')
      fun o o' _ p p' => o.x = o'.x → AlikeAcross p p' := by
  constructor
  case step =>
    rintro ⟨x, y⟩ ⟨_, y'⟩ kind label rfl
    exact .step hs kind label
  case branch =>
    rintro ⟨x, y⟩ ⟨_, y'⟩ c t f _ _ _ _ ht hf rfl
    exact .branch hs (ht rfl) (hf (congrArg (x + ·) hs.horizontalGap))
  case loop =>
    rintro ⟨x, y⟩ ⟨_, y'⟩ c nodes _ _ hbody rfl
    exact .loop hs (hbody rfl)
  case nil =>
    rintro ⟨x, y⟩ ⟨_, y'⟩ -
    exact ⟨rfl, rfl⟩
  case cons =>
    rintro ⟨x, y⟩ ⟨_, y'⟩ n ns _ _ _ _ hn hns rfl
    exact .cons (hn rfl) (hns rfl)

/-! ## Both axes -/

/-- No corner of an edge lies in a column that is not a number. -/
def NoNaN (p : Scene Float32) : Prop := ∀ e ∈ p.edges, ∀ a ∈ e.xs, a.isNaN = false

instance (p : Scene Float32) : Decidable (NoNaN p) :=
  inferInstanceAs (Decidable (∀ e ∈ p.edges, ∀ a ∈ e.xs, a.isNaN = false))

theorem NoNaN.numeric {p : Scene Float32} (h : NoNaN p) : Numeric p :=
  fun e he => isNumber_iff.mpr (h e he e.source.x List.mem_cons_self)

/-- **Across and down.** Take two layouts of the same sequence in the arithmetic of charts. If they
begin at the same height and their settings agree in the distances that run down a chart, then
boxes, corners and ends lie at the same heights, as long as every column is a number. If they begin
in the same column and their settings agree in the distances that run across, then boxes and corners
lie in the same columns. -/
theorem sequence_axes {s s' : Settings Float32} {nodes : List Node} {x y x' y' : Float32}
    {depth depth' : Nat} {p p' : Scene Float32} (h : sequence s nodes x y depth = .ok p)
    (h' : sequence s' nodes x' y' depth' = .ok p') :
    (SameHeights s s' → y = y' → NoNaN p → NoNaN p' →
      p.boxes.map Box.topY = p'.boxes.map Box.topY ∧ p.edges.map Edge.ys = p'.edges.map Edge.ys ∧
      p.endY = p'.endY) ∧
    (SameWidths s s' → x = x' →
      p.boxes.map Box.centerX = p'.boxes.map Box.centerX ∧
      p.edges.map Edge.xs = p'.edges.map Edge.xs) := by
  refine ⟨fun hs hy hp hp' => ?_, fun hs hx => ?_⟩
  · have hdown := (keepsBoth_down hs).of_sequence h h' hy hp.numeric hp'.numeric
    exact ⟨hdown.boxes, hdown.edges, hdown.endY⟩
  · have hacross := (keepsBoth_across hs).of_sequence h h' hx
    have hcenters (p : Scene Float32) :
        p.boxes.map Box.centerX = (p.boxes.map Box.across).map Prod.fst := by
      rw [List.map_map]
      rfl
    exact ⟨by rw [hcenters, hcenters, hacross.boxes], hacross.edges⟩

/-- A loop in a branch, with other distances across in another column, and with other distances down
at another height. -/
theorem loop_in_branch_axes :
    let nodes : List Node := [.start, .branch "a" [.loop "b" [.stop]] [.stop, .stop], .stop]
    let s : Settings Float32 := .default
    ∃ p q r,
      sequence s nodes 400 50 0 = .ok p ∧
      sequence { s with nodeWidth := 90, horizontalGap := 7, laneClearance := 3 } nodes 0.1 50 0 =
        .ok q ∧
      sequence { s with nodeHeight := 33, verticalGap := 5 } nodes 400 0.1 2 = .ok r ∧
      (p.boxes.map Box.topY = q.boxes.map Box.topY ∧ p.edges.map Edge.ys = q.edges.map Edge.ys ∧
        p.endY = q.endY) ∧
      (p.boxes.map Box.centerX = r.boxes.map Box.centerX ∧
        p.edges.map Edge.xs = r.edges.map Edge.xs) := by
  intro nodes s
  have hp : sequence s nodes 400 50 0 = .ok _ := rfl
  have hq : sequence { s with nodeWidth := 90, horizontalGap := 7, laneClearance := 3 } nodes 0.1 50
    0 = .ok _ := rfl
  have hr : sequence { s with nodeHeight := 33, verticalGap := 5 } nodes 400 0.1 2 = .ok _ := rfl
  refine ⟨_, _, _, hp, hq, hr, ?_, ?_⟩
  · exact (sequence_axes hp hq).1 ⟨rfl, rfl, rfl, rfl⟩ rfl (by decide +kernel) (by decide +kernel)
  · exact (sequence_axes hp hr).2 ⟨rfl, rfl, rfl, rfl, rfl, rfl⟩ rfl

end Layout

end Flowchart
