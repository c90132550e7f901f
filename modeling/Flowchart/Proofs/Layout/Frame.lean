import Flowchart.Proofs.Geometry.Line
import Flowchart.Proofs.Layout.Apart

/-!
# The frame of a layout

* `Framed`: a layout keeps to the strip from where it begins down to its end, boxes and connectors
  alike, and below its last box a gap is free. What is laid out of a node is framed, and so is what
  is laid out of a sequence, unless the sequence is empty (`keeps_framed`).
* `FramedAll.connect`: where the way out of a branch or a body begins.
* The corners of each kind of connector (`points_down`, `points_loopBack`, …).
-/

namespace Flowchart

open Scalar

/-! ## Corners of connectors -/

namespace Edge

variable (kind : EdgeKind) (x a b lane : Rat) (p q : Point Rat)

theorem points_down : (down kind x a b).points = [⟨x, a⟩, ⟨x, b⟩] := by
  simp [down, route, Point.isAligned, points]

theorem target_down : (down kind x a b).target = ⟨x, b⟩ := by
  simp [down, route, Point.isAligned]

theorem source_down : (down kind x a b).source = ⟨x, a⟩ := by
  simp [down, route, Point.isAligned]

theorem points_trueArm : (trueArm x a b).points = [⟨x, a⟩, ⟨x, b⟩] := points_down ..

theorem target_trueArm : (trueArm x a b).target = ⟨x, b⟩ := target_down ..

theorem points_falseArm : (falseArm p x b).points = [p, ⟨x, p.y⟩, ⟨x, b⟩] := rfl

theorem points_falseMerge : (falseMerge lane a x b).points = [⟨lane, a⟩, ⟨lane, b⟩, ⟨x, b⟩] := rfl

theorem points_loopBack :
    (loopBack p lane q).points = [p, ⟨lane, p.y⟩, ⟨lane, q.y⟩, q] := rfl

theorem points_loopExit :
    (loopExit p lane x b).points = [p, ⟨lane, p.y⟩, ⟨lane, b⟩, ⟨x, b⟩] := rfl

end Edge

namespace Layout

variable {s : Settings Rat} {x y : Rat}

/-! ## Frames -/

/-- What is laid out from height `y` down keeps to its strip, and a gap is free below its last
box. -/
structure Framed (s : Settings Rat) (y : Rat) (p : Scene Rat) : Prop where
  room : y + s.verticalGap ≤ p.endY
  le_minY : ∀ b ∈ p.boxes, y ≤ b.occupied.minY
  maxY_le : ∀ b ∈ p.boxes, b.occupied.maxY ≤ p.endY - s.verticalGap
  points : ∀ e ∈ p.edges, ∀ q ∈ e.points, y ≤ q.y ∧ q.y ≤ p.endY

/-- The layout of a sequence is framed or empty. -/
structure FramedAll (s : Settings Rat) (y : Rat) (nodes : List Node) (p : Scene Rat) : Prop where
  of_nil : nodes = [] → p = .empty y
  of_ne_nil : nodes ≠ [] → Framed s y p

theorem Framed.le_endY (hs : Tall s) {p : Scene Rat} (h : Framed s y p) : y ≤ p.endY := by
  have := h.room
  have := hs.verticalGap
  linarith

namespace FramedAll

variable {nodes : List Node} {p : Scene Rat}

theorem le_endY (hs : Tall s) (h : FramedAll s y nodes p) : y ≤ p.endY := by
  by_cases hn : nodes = []
  · rw [h.of_nil hn, Scene.empty]
  · exact (h.of_ne_nil hn).le_endY hs

theorem le_minY (h : FramedAll s y nodes p) : ∀ b ∈ p.boxes, y ≤ b.occupied.minY := by
  by_cases hn : nodes = []
  · simp [h.of_nil hn, Scene.empty]
  · exact (h.of_ne_nil hn).le_minY

theorem maxY_le (hs : Tall s) (h : FramedAll s y nodes p) :
    ∀ b ∈ p.boxes, b.occupied.maxY ≤ p.endY := by
  have hgap := hs.verticalGap
  by_cases hn : nodes = []
  · simp [h.of_nil hn, Scene.empty]
  · intro b hb
    have := (h.of_ne_nil hn).maxY_le b hb
    linarith

theorem points (h : FramedAll s y nodes p) :
    ∀ e ∈ p.edges, ∀ q ∈ e.points, y ≤ q.y ∧ q.y ≤ p.endY := by
  by_cases hn : nodes = []
  · simp [h.of_nil hn, Scene.empty]
  · exact (h.of_ne_nil hn).points

/-- The way out begins within the strip, below all boxes. -/
theorem connect (hs : Tall s) (h : FramedAll s (innerY s y) nodes p) :
    innerY s y ≤ connectY s y nodes p ∧ connectY s y nodes p ≤ p.endY ∧
      ∀ b ∈ p.boxes, b.occupied.maxY ≤ connectY s y nodes p := by
  have hgap := hs.verticalGap
  by_cases hn : nodes = []
  · simp [connectY, hn, h.of_nil hn, Scene.empty]
  · have hf := h.of_ne_nil hn
    have hroom := hf.room
    simp only [connectY, List.isEmpty_iff, hn, ↓reduceIte]
    exact ⟨by linarith, by linarith, hf.maxY_le⟩

theorem shifted (h : FramedAll s y nodes p) (dx : Rat) : FramedAll s y nodes (p.shifted dx) where
  of_nil hn := by rw [h.of_nil hn]; rfl
  of_ne_nil hn := by
    have hf := h.of_ne_nil hn
    refine ⟨hf.room, ?_, ?_, ?_⟩
    · simp only [Scene.shifted, List.forall_mem_map, Box.occupied_shifted]
      exact hf.le_minY
    · simp only [Scene.shifted, List.forall_mem_map, Box.occupied_shifted]
      exact hf.maxY_le
    · simp only [Scene.shifted, List.forall_mem_map, Edge.points_shifted, Point.shifted_y]
      exact hf.points

end FramedAll

/-! ## One way of putting parts together at a time -/

theorem vertexY_le_armY (hs : Tall s) : y ≤ vertexY s y ∧ vertexY s y ≤ armY s y := by
  have := hs.decisionHeight
  simp only [vertexY, armY, half, Scalar.ofNat]
  constructor <;> linarith

theorem Framed.step (hs : Tall s) (kind : StepKind) (label : String) :
    Framed s y (stepScene s kind label x y) where
  room := by
    have := hs.nodeHeight
    simp only [stepScene]
    linarith
  le_minY := by simp [stepScene, minY_stepBox]
  maxY_le := by
    simp only [stepScene, List.mem_singleton, forall_eq, maxY_stepBox]
    linarith
  points := by simp [stepScene]

/-- A diamond above what keeps to the strip below it. -/
theorem Framed.decision (hs : Tall s) {bs : List (Box Rat)} {es : List (Edge Rat)} {endY : Rat}
    (hend : innerY s y ≤ endY) (hmin : ∀ b ∈ bs, innerY s y ≤ b.occupied.minY)
    (hmax : ∀ b ∈ bs, b.occupied.maxY ≤ endY)
    (hpoints : ∀ e ∈ es, ∀ q ∈ e.points, y ≤ q.y ∧ q.y ≤ endY + s.verticalGap)
    (kind : NodeKind) (c : String) :
    Framed s y ⟨diamond s kind c x y :: bs, es, endY + s.verticalGap⟩ := by
  obtain ⟨hy, harm⟩ := le_innerY (y := y) hs
  have hgap := hs.verticalGap
  constructor
  case room => show y + s.verticalGap ≤ endY + s.verticalGap; linarith
  case le_minY =>
    rw [List.forall_mem_cons, minY_diamond]
    exact ⟨le_rfl, fun b hb => hy.trans (hmin b hb)⟩
  case maxY_le =>
    simp only [List.forall_mem_cons, maxY_diamond, add_sub_cancel_right]
    exact ⟨harm.trans hend, hmax⟩
  case points => exact hpoints

theorem Framed.branch (hs : Tall s) {c : String} {t f : List Node}
    {whenTrue whenFalse : Scene Rat} (ht : FramedAll s (innerY s y) t whenTrue)
    (hf : FramedAll s (innerY s y) f whenFalse) :
    Framed s y (branchScene s c x y t f whenTrue whenFalse) := by
  have hgap := hs.verticalGap
  obtain ⟨hy, harm⟩ := le_innerY (y := y) hs
  obtain ⟨hvertex, hvertex'⟩ := vertexY_le_armY (y := y) hs
  obtain ⟨htc, htc', htmax⟩ := ht.connect hs
  obtain ⟨hfc, hfc', hfmax⟩ := hf.connect hs
  have hshift := hf.shifted (falseShift s (diamond s .branch c x y).occupied whenTrue whenFalse)
  obtain ⟨-, -, hsmax⟩ := hshift.connect hs
  have htm : whenTrue.endY ≤ greatest whenTrue.endY whenFalse.endY := le_max_left ..
  have hfm : whenFalse.endY ≤ greatest whenTrue.endY whenFalse.endY := le_max_right ..
  refine Framed.decision hs (by linarith) ?_ ?_ ?_ .branch c
  · exact List.forall_mem_append.mpr ⟨ht.le_minY, hshift.le_minY⟩
  · refine List.forall_mem_append.mpr ⟨fun b hb => ?_, fun b hb => ?_⟩
    · have := htmax b hb
      linarith
    · have : b.occupied.maxY ≤ connectY s y f whenFalse := hsmax b hb
      linarith
  · have hwithin {e : Edge Rat} (he : ∀ q ∈ e.points, innerY s y ≤ q.y ∧
        q.y ≤ greatest whenTrue.endY whenFalse.endY) : ∀ q ∈ e.points, y ≤ q.y ∧
          q.y ≤ greatest whenTrue.endY whenFalse.endY + s.verticalGap := by
      intro q hq
      obtain ⟨h1, h2⟩ := he q hq
      constructor <;> linarith
    have htp := fun e he => hwithin fun q hq =>
      ⟨(ht.points e he q hq).1, (ht.points e he q hq).2.trans htm⟩
    have hfp := fun e he => hwithin fun q hq =>
      ⟨(hshift.points e he q hq).1, (hshift.points e he q hq).2.trans hfm⟩
    rw [List.forall_mem_cons, List.forall_mem_cons, List.forall_mem_append, List.forall_mem_cons,
      List.forall_mem_append, List.forall_mem_singleton]
    refine ⟨?_, ?_, htp, ?_, hfp, ?_⟩
    · simp only [Edge.points_trueArm, List.forall_mem_cons, List.not_mem_nil, false_imp_iff,
      implies_true, and_true]
      constructor <;> constructor <;> linarith
    · simp only [Edge.points_falseArm, List.forall_mem_cons, List.not_mem_nil, false_imp_iff,
      implies_true, and_true]
      refine ⟨?_, ?_, ?_⟩ <;> constructor <;> linarith
    · simp only [Edge.points_down, List.forall_mem_cons, List.not_mem_nil, false_imp_iff,
      implies_true, and_true]
      constructor <;> constructor <;> linarith
    · simp only [Edge.points_falseMerge, List.forall_mem_cons, List.not_mem_nil, false_imp_iff,
      implies_true, and_true]
      refine ⟨?_, ?_, ?_⟩ <;> constructor <;> linarith

theorem Framed.loop (hs : Tall s) {c : String} {nodes : List Node} {body : Scene Rat}
    (h : FramedAll s (innerY s y) nodes body) : Framed s y (loopScene s c x y nodes body) := by
  have hgap := hs.verticalGap
  obtain ⟨hy, harm⟩ := le_innerY (y := y) hs
  obtain ⟨hvertex, hvertex'⟩ := vertexY_le_armY (y := y) hs
  obtain ⟨hc, hc', hmax⟩ := h.connect hs
  refine Framed.decision hs (h.le_endY hs) h.le_minY (fun b hb => (hmax b hb).trans hc') ?_ .loop c
  rw [List.forall_mem_cons, List.forall_mem_append, List.forall_mem_cons, List.forall_mem_singleton]
  refine ⟨?_, fun e he q hq => ?_, ?_, ?_⟩
  · simp only [Edge.points_trueArm, List.forall_mem_cons, List.not_mem_nil, false_imp_iff,
      implies_true, and_true]
    constructor <;> constructor <;> linarith
  · obtain ⟨h1, h2⟩ := h.points e he q hq
    constructor <;> linarith
  · simp only [Edge.points_loopBack, List.forall_mem_cons, List.not_mem_nil, false_imp_iff,
      implies_true, and_true]
    refine ⟨?_, ?_, ?_, ?_⟩ <;> constructor <;> linarith
  · simp only [Edge.points_loopExit, List.forall_mem_cons, List.not_mem_nil, false_imp_iff,
      implies_true, and_true]
    refine ⟨?_, ?_, ?_, ?_⟩ <;> constructor <;> linarith

/-- The edge to what follows a step runs in the gap below the step. -/
theorem points_sequenceEdges (hs : Tall s) {n : Node} {ns : List Node} {nextY : Rat}
    (h : ∀ kind label, n = .step kind label → nextY = y + (s.nodeHeight + s.verticalGap)) :
    ∀ e ∈ sequenceEdges s n ns x y nextY, ∀ q ∈ e.points,
      nextY - s.verticalGap ≤ q.y ∧ q.y ≤ nextY := by
  have hgap := hs.verticalGap
  cases n with
  | step kind label =>
    cases ns with
    | nil => simp [sequenceEdges]
    | cons m ms =>
      have hnext := h kind label rfl
      simp only [sequenceEdges, List.forall_mem_singleton, Edge.points_down, List.forall_mem_cons]
      constructor <;> constructor <;> linarith
  | branch | loop => simp [sequenceEdges]

theorem Framed.cons (hs : Tall s) {n : Node} {ns : List Node} {first rest : Scene Rat}
    (hn : ∀ kind label, n = .step kind label →
      first.endY = y + (s.nodeHeight + s.verticalGap))
    (hf : Framed s y first) (hr : FramedAll s first.endY ns rest) :
    Framed s y (columnScene s x y n ns first rest) := by
  have hgap := hs.verticalGap
  have hfirst := hf.le_endY hs
  have hrest := hr.le_endY hs
  have hedges : ∀ e ∈ sequenceEdges s n ns x y first.endY, ∀ q ∈ e.points,
      first.endY - s.verticalGap ≤ q.y ∧ q.y ≤ first.endY := points_sequenceEdges hs hn
  constructor
  case room => exact hf.room.trans hrest
  case le_minY =>
    exact List.forall_mem_append.mpr ⟨hf.le_minY, fun b hb => hfirst.trans (hr.le_minY b hb)⟩
  case maxY_le =>
    refine List.forall_mem_append.mpr ⟨fun b hb => ?_, fun b hb => ?_⟩
    · have := hf.maxY_le b hb
      show b.occupied.maxY ≤ rest.endY - s.verticalGap
      linarith
    · by_cases hns : ns = []
      · simp [hr.of_nil hns, Scene.empty] at hb
      · exact (hr.of_ne_nil hns).maxY_le b hb
  case points =>
    refine List.forall_mem_append.mpr ⟨List.forall_mem_append.mpr ⟨?_, ?_⟩, ?_⟩
    · exact fun e he q hq => ⟨(hf.points e he q hq).1, (hf.points e he q hq).2.trans hrest⟩
    · intro e he q hq
      obtain ⟨h1, h2⟩ := hedges e he q hq
      have hroom := hf.room
      exact ⟨by linarith, h2.trans hrest⟩
    · exact fun e he q hq => ⟨hfirst.trans (hr.points e he q hq).1, (hr.points e he q hq).2⟩

/-! ## Whole layouts -/

/-- The layout of a node is framed; a step ends right below its gap. -/
structure FramedNode (s : Settings Rat) (y : Rat) (n : Node) (p : Scene Rat) : Prop where
  framed : Framed s y p
  endY_step : ∀ kind label, n = .step kind label → p.endY = y + (s.nodeHeight + s.verticalGap)

theorem keeps_framed (hs : Tall s) : Keeps s (fun _ _ y n p => FramedNode s y n p)
    fun _ _ y nodes p => FramedAll s y nodes p where
  step _ _ _ kind label := ⟨.step hs kind label, fun _ _ _ => rfl⟩
  branch _ _ _ _ _ _ _ _ ht hf := ⟨.branch hs ht hf, by simp⟩
  loop _ _ _ _ _ _ hb := ⟨.loop hs hb, by simp⟩
  nil _ _ _ := ⟨fun _ => rfl, fun h => absurd rfl h⟩
  cons _ _ _ _ _ _ _ hn hs' :=
    ⟨fun h => absurd h (List.cons_ne_nil _ _), fun _ => .cons hs hn.endY_step hn.framed hs'⟩

end Layout

end Flowchart
