import Flowchart.Drawing
import Flowchart.Proofs.Geometry.Line
import Flowchart.Proofs.Layout.Induction

/-!
# The canvas

`program_within_canvas`: in exact arithmetic everything that is drawn of a layout, moved as the
drawing moves it, lies between the origin and the width and height of the document.

* The bounds of a scene are the least rectangle that encloses it: they lie in a rectangle if and
  only if all footprints and all corners of connectors do (`covers_bounds?_iff`).
* A shape stays within its footprint, but for the corners of a narrow parallelogram, which may reach
  beyond it by the slant of its sides (`Box.Drawable.vertices_covered`). The margin of the canvas is
  wider than that.
* `Layout.keeps_drawable`: what the boxes of every layout have in common for this to hold.
-/

namespace Flowchart

open Scalar

/-! ## The bounds of a scene -/

/-- The rectangle holds the footprints of all boxes of the scene and all corners of its edges. -/
def Bounds.Encloses (c : Bounds Rat) (p : Scene Rat) : Prop :=
  (∀ b ∈ p.boxes, c.Covers b.occupied) ∧ ∀ e ∈ p.edges, ∀ q ∈ e.points, c.Covers (.ofPoint q)

namespace Scene

variable {p : Scene Rat} {b c : Bounds Rat}

theorem covers_bounds?_iff (h : p.bounds? = some b) : c.Covers b ↔ c.Encloses p := by
  rw [Bounds.covers_mergeAll? h, List.forall_mem_append, List.forall_mem_map, List.forall_mem_map]
  exact and_congr_right fun _ => forall₂_congr fun _ _ => Edge.covers_bounds

theorem bounds?_eq_none_iff : p.bounds? = none ↔ p.boxes = [] ∧ p.edges = [] := by
  rw [bounds?, Bounds.mergeAll?_eq_none, List.append_eq_nil_iff, List.map_eq_nil_iff,
    List.map_eq_nil_iff]

end Scene

/-! ## What a drawing shows -/

namespace Bounds

variable {b c : Bounds Rat} {v : Point Rat}

theorem covers_ofPoint : c.Covers (.ofPoint v) ↔
    (c.minX ≤ v.x ∧ v.x ≤ c.maxX) ∧ c.minY ≤ v.y ∧ v.y ≤ c.maxY :=
  ⟨fun h => ⟨⟨h.minX_le, h.le_maxX⟩, h.minY_le, h.le_maxY⟩, fun h => ⟨h.1.1, h.2.1, h.1.2, h.2.2⟩⟩

theorem pad_covers {m : Rat} (hm : 0 ≤ m) (b : Bounds Rat) : (b.pad (.uniform m)).Covers b :=
  ⟨sub_le_self _ hm, sub_le_self _ hm, le_add_of_nonneg_right hm, le_add_of_nonneg_right hm⟩

theorem Covers.pad {m m' : Rat} (hm : m ≤ m') (h : c.Covers b) :
    (c.pad (.uniform m')).Covers (b.pad (.uniform m)) :=
  ⟨sub_le_sub h.minX_le hm, sub_le_sub h.minY_le hm, add_le_add h.le_maxX hm,
    add_le_add h.le_maxY hm⟩

end Bounds

namespace Scene

variable {p : Scene Rat}

/-- The point, moved as the drawing of the scene is moved, lies in the document. -/
def Shows (p : Scene Rat) (v : Point Rat) : Prop :=
  let q := v.add p.offset
  0 ≤ q.x ∧ q.x ≤ p.canvas.width ∧ 0 ≤ q.y ∧ q.y ≤ p.canvas.height

theorem Shows.of_covers {v : Point Rat} (h : p.canvas.Covers (.ofPoint v)) : p.Shows v := by
  have hx : 0 ≤ v.x - p.canvas.minX := sub_nonneg.mpr h.minX_le
  have hy : 0 ≤ v.y - p.canvas.minY := sub_nonneg.mpr h.minY_le
  have hright : v.x - p.canvas.minX ≤ p.canvas.maxX - p.canvas.minX :=
    sub_le_sub_right h.le_maxX _
  have hbottom : v.y - p.canvas.minY ≤ p.canvas.maxY - p.canvas.minY :=
    sub_le_sub_right h.le_maxY _
  rw [sub_eq_add_neg] at hx hy hright hbottom
  exact ⟨hx, hright, hy, hbottom⟩

/-- The canvas keeps its margin from everything that the bounds are made of. -/
theorem canvas_covers {a : Bounds Rat}
    (ha : a ∈ p.boxes.map Box.occupied ++ p.edges.map Edge.bounds) :
    p.canvas.Covers (a.pad (.uniform margin)) := by
  cases hb : p.bounds? with
  | none => exact absurd (Bounds.mergeAll?_eq_none.mp hb) (List.ne_nil_of_mem ha)
  | some b =>
    rw [canvas, hb, Option.getD_some]
    exact (Bounds.mergeAll?_covers hb a ha).pad le_rfl

end Scene

/-! ## Shapes -/

namespace Bounds

variable {b : Bounds Rat}

theorem rectangle_covered (hx : b.minX ≤ b.maxX) (hy : b.minY ≤ b.maxY) (radius : Rat) :
    ∀ v ∈ (Shape.rectangle b radius).vertices, b.Covers (.ofPoint v) := by
  have hright : b.minX + b.width = b.maxX := add_sub_cancel ..
  have hbottom : b.minY + b.height = b.maxY := add_sub_cancel ..
  simp [Shape.vertices, hright, hbottom, covers_ofPoint, hx, hy]

theorem rhombus_covered (hx : b.minX ≤ b.maxX) (hy : b.minY ≤ b.maxY) :
    ∀ v ∈ (rhombus b).vertices, b.Covers (.ofPoint v) := by
  have hcenter {a c : Rat} (h : a ≤ c) : a ≤ half (a + c) ∧ half (a + c) ≤ c := by
    simp only [half, Scalar.ofNat]
    constructor <;> push_cast <;> linarith
  simp [rhombus, Shape.vertices, covers_ofPoint, center, hx, hy, hcenter hx, hcenter hy]

/-- Where a parallelogram is narrower than its sides lean, they reach beyond the rectangle. -/
theorem parallelogram_covered (hx : b.minX ≤ b.maxX) (hy : b.minY ≤ b.maxY) :
    ∀ v ∈ (parallelogram b).vertices, (b.pad (.uniform slant)).Covers (.ofPoint v) := by
  have hslant : (0 : Rat) ≤ slant := Nat.cast_nonneg _
  simp only [parallelogram, Shape.vertices, List.forall_mem_cons, covers_ofPoint, pad,
    Insets.uniform, List.not_mem_nil, false_imp_iff, implies_true, and_true]
  refine ⟨⟨⟨?_, ?_⟩, ?_, ?_⟩, ⟨⟨?_, ?_⟩, ?_, ?_⟩, ⟨⟨?_, ?_⟩, ?_, ?_⟩, ⟨?_, ?_⟩, ?_, ?_⟩ <;> linarith

end Bounds

/-- The footprint of the box has no negative side, and for a step it is the nominal box. -/
structure Box.Drawable (b : Box Rat) : Prop where
  width : 0 ≤ b.footprint.width
  height : 0 ≤ b.footprint.height
  size_eq : b.kind.isDecision = false → b.size = b.footprint

namespace Box.Drawable

variable {b : Box Rat}

theorem shifted (h : b.Drawable) (dx : Rat) : (b.shifted dx).Drawable :=
  ⟨h.width, h.height, h.size_eq⟩

theorem occupied_le (h : b.Drawable) :
    b.occupied.minX ≤ b.occupied.maxX ∧ b.occupied.minY ≤ b.occupied.maxY := by
  have hw : 0 ≤ half b.footprint.width := div_nonneg h.width (Nat.cast_nonneg 2)
  have hh : 0 ≤ half b.footprint.height := div_nonneg h.height (Nat.cast_nonneg 2)
  simp only [occupied, Bounds.around]
  constructor <;> linarith

/-- A shape reaches beyond its footprint by no more than the sides of a parallelogram lean. -/
theorem vertices_covered (h : b.Drawable) :
    ∀ v ∈ b.shape.vertices, (b.occupied.pad (.uniform slant)).Covers (.ofPoint v) := by
  obtain ⟨hx, hy⟩ := h.occupied_le
  have hpad := Bounds.pad_covers (m := slant) (Nat.cast_nonneg _) b.occupied
  cases hk : b.kind with
  | step kind =>
    have hbounds : b.bounds = b.occupied := by
      rw [bounds, h.size_eq (by rw [hk]; rfl), occupied]
    cases kind with
    | start | stop | process =>
      rw [shape, hk, hbounds]
      exact fun v hv => hpad.trans (Bounds.rectangle_covered hx hy _ v hv)
    | io =>
      rw [shape, hk, hbounds]
      exact Bounds.parallelogram_covered hx hy
  | branch | loop =>
    rw [shape, hk]
    exact fun v hv => hpad.trans (Bounds.rhombus_covered hx hy v hv)

end Box.Drawable

/-! ## Whole layouts -/

namespace Layout

/-- No shape has a negative width or height. -/
structure Solid (s : Settings Rat) : Prop where
  nodeWidth : 0 ≤ s.nodeWidth
  nodeHeight : 0 ≤ s.nodeHeight
  decisionHeight : 0 ≤ s.decisionHeight
  decisionHalfWidth : 0 ≤ s.decisionHalfWidth

variable {s : Settings Rat}

theorem drawable_stepBox (hs : Solid s) (kind : StepKind) (label : String) (x y : Rat) :
    (stepBox s kind label x y).Drawable :=
  ⟨hs.nodeWidth, hs.nodeHeight, fun _ => rfl⟩

theorem drawable_diamond (hs : Solid s) {kind : NodeKind} (hk : kind.isDecision = true)
    (condition : String) (x y : Rat) : (diamond s kind condition x y).Drawable where
  width := mul_nonneg (Nat.cast_nonneg 2) hs.decisionHalfWidth
  height := hs.decisionHeight
  size_eq h := absurd (hk.symm.trans h) Bool.noConfusion

theorem keeps_drawable (hs : Solid s) : Keeps s (fun _ _ _ _ p => ∀ b ∈ p.boxes, b.Drawable)
    fun _ _ _ _ p => ∀ b ∈ p.boxes, b.Drawable where
  step _ x y kind label := List.forall_mem_singleton.mpr (drawable_stepBox hs kind label x y)
  branch _ x y c t f whenTrue whenFalse ht hf := by
    simp only [branchScene, List.forall_mem_cons, List.forall_mem_append]
    exact ⟨drawable_diamond hs rfl c x y, ht,
      List.forall_mem_map.mpr fun b hb => (hf b hb).shifted _⟩
  loop _ x y c nodes body hb := List.forall_mem_cons.mpr ⟨drawable_diamond hs rfl c x y, hb⟩
  nil _ _ _ := by simp [Scene.empty]
  cons _ x y n ns first rest hf hr := List.forall_mem_append.mpr ⟨hf, hr⟩

/-- **The canvas.** Everything that is drawn of a layout, the corners of its shapes and edges, lies
between the origin and the width and height of the document. The bounds of a scene, on which the
canvas rests, are the least rectangle around its footprints and the corners of its edges; only a
scene with neither boxes nor edges has none. -/
theorem program_within_canvas (hs : Solid s) {program : Program} {p : Scene Rat}
    (h : Layout.program s program = .ok p) :
    (∀ b ∈ p.boxes, ∀ v ∈ b.shape.vertices, p.Shows v) ∧
    (∀ e ∈ p.edges, ∀ v ∈ e.points, p.Shows v) ∧
    ∀ q : Scene Rat, (q.bounds? = none ↔ q.boxes = [] ∧ q.edges = []) ∧
      ∀ b, q.bounds? = some b → b.Encloses q ∧ ∀ c : Bounds Rat, c.Encloses q → c.Covers b := by
  have hdrawable := (keeps_drawable hs).of_sequence h
  have hmargin : (0 : Rat) ≤ margin ∧ (slant : Rat) ≤ margin := by decide +kernel
  refine ⟨fun b hb v hv => ?_, fun e he v hv => ?_,
    fun q => ⟨Scene.bounds?_eq_none_iff, fun b hb => ?_⟩⟩
  · have hcanvas := Scene.canvas_covers (List.mem_append_left _ (List.mem_map_of_mem hb))
    have hslant := (Bounds.Covers.refl b.occupied).pad hmargin.2
    exact .of_covers (hcanvas.trans (hslant.trans ((hdrawable b hb).vertices_covered v hv)))
  · have hcanvas := Scene.canvas_covers (List.mem_append_right _ (List.mem_map_of_mem he))
    have hcorner := (Bounds.pad_covers hmargin.1 e.bounds).trans (Edge.bounds_covers_point hv)
    exact .of_covers (hcanvas.trans hcorner)
  · exact ⟨(Scene.covers_bounds?_iff hb).mp (.refl b), fun c => (Scene.covers_bounds?_iff hb).mpr⟩

/-- Shapes without any width, and a false branch that begins left of its `if`. -/
theorem narrow_branches_within_canvas :
    let s : Settings Rat := { Settings.default with
      nodeWidth := 0, decisionHalfWidth := 0, decisionSize := -160, horizontalGap := -340 }
    Solid s ∧ ∃ p, Layout.program s
        (.ofNodes [.step .io "a", .branch "b" [.loop "c" [.stop]] [.step .io "d"]]) = .ok p ∧
      (∀ b ∈ p.boxes, ∀ v ∈ b.shape.vertices, p.Shows v) ∧
      (∀ e ∈ p.edges, ∀ v ∈ e.points, p.Shows v) ∧
      ∀ q : Scene Rat, (q.bounds? = none ↔ q.boxes = [] ∧ q.edges = []) ∧
        ∀ b, q.bounds? = some b → b.Encloses q ∧ ∀ c : Bounds Rat, c.Encloses q → c.Covers b := by
  intro s
  have hs : Solid s := ⟨le_rfl, Nat.cast_nonneg 60, Nat.cast_nonneg 226, le_rfl⟩
  have h : Layout.program s
      (.ofNodes [.step .io "a", .branch "b" [.loop "c" [.stop]] [.step .io "d"]]) = .ok _ := rfl
  exact ⟨hs, _, h, program_within_canvas hs h⟩

end Layout

end Flowchart
