import Mathlib.Algebra.Order.Field.Basic
import Flowchart.Proofs.Geometry

/-!
# Lines of connectors

* `Edge.line`: the points of a connector, all of its straight parts with their ends.
* `Edge.Misses`: a connector has no point strictly inside a rectangle. It is enough that the two
  ends of each straight part lie on one side of the rectangle (`Edge.misses_of_beside`).
* Moving connector and rectangle by the same distance makes no difference (`Edge.misses_shifted`).
-/

namespace Flowchart

open Scalar

/-! ## Straight parts -/

/-- The points from `p` straight to `q`, both included. -/
def Point.segment (p q : Point Rat) : Set (Point Rat) :=
  {r | ∃ t : Rat, 0 ≤ t ∧ t ≤ 1 ∧ r.x = p.x + t * (q.x - p.x) ∧ r.y = p.y + t * (q.y - p.y)}

namespace Point

variable {p q r : Point Rat} {a b t : Rat}

theorem shifted_x (dx : Rat) (p : Point Rat) : (p.shifted dx).x = p.x + dx := rfl

theorem shifted_y (dx : Rat) (p : Point Rat) : (p.shifted dx).y = p.y := by
  simp [shifted, add, zero, Scalar.ofNat]

theorem shifted_eq (dx a b : Rat) : shifted dx ⟨a, b⟩ = ⟨a + dx, b⟩ := by
  simp [shifted, add, zero, Scalar.ofNat]

theorem source_mem_segment (p q : Point Rat) : p ∈ p.segment q :=
  ⟨0, by norm_num, by norm_num, by ring, by ring⟩

/-- A part of the way from `a` to `b` stays between them. -/
theorem le_of_le_ends {m : Rat} (h0 : 0 ≤ t) (h1 : t ≤ 1) (ha : a ≤ m) (hb : b ≤ m) :
    a + t * (b - a) ≤ m := by
  have hleft : (1 - t) * a ≤ (1 - t) * m := mul_le_mul_of_nonneg_left ha (by linarith)
  have hright : t * b ≤ t * m := mul_le_mul_of_nonneg_left hb h0
  linarith

theorem le_of_ends_le {m : Rat} (h0 : 0 ≤ t) (h1 : t ≤ 1) (ha : m ≤ a) (hb : m ≤ b) :
    m ≤ a + t * (b - a) := by
  have := le_of_le_ends h0 h1 (neg_le_neg ha) (neg_le_neg hb)
  linarith

/-- A straight part down a column. -/
theorem mem_segment_of_column {x y₁ y₂ : Rat} (hx : r.x = x) (h1 : y₁ ≤ r.y) (h2 : r.y ≤ y₂) :
    r ∈ Point.segment ⟨x, y₁⟩ ⟨x, y₂⟩ := by
  rcases eq_or_lt_of_le (h1.trans h2) with rfl | hlt
  · exact ⟨0, le_rfl, zero_le_one, by simp [hx], by simp [le_antisymm h2 h1]⟩
  · have hpos : 0 < y₂ - y₁ := sub_pos.mpr hlt
    refine ⟨(r.y - y₁) / (y₂ - y₁), div_nonneg (by linarith) hpos.le, ?_, by simp [hx], ?_⟩
    · rw [div_le_one hpos]
      linarith
    · rw [div_mul_cancel₀ _ hpos.ne']
      ring

/-- The height of a point on a straight part lies between those of its ends. -/
theorem y_of_mem_segment {m : Rat} (h : r ∈ p.segment q) :
    (m ≤ p.y → m ≤ q.y → m ≤ r.y) ∧ (p.y ≤ m → q.y ≤ m → r.y ≤ m) := by
  obtain ⟨t, h0, h1, -, hy⟩ := h
  rw [hy]
  exact ⟨le_of_ends_le h0 h1, le_of_le_ends h0 h1⟩

theorem x_of_mem_segment {m : Rat} (h : r ∈ p.segment q) :
    (m ≤ p.x → m ≤ q.x → m ≤ r.x) ∧ (p.x ≤ m → q.x ≤ m → r.x ≤ m) := by
  obtain ⟨t, h0, h1, hx, -⟩ := h
  rw [hx]
  exact ⟨le_of_ends_le h0 h1, le_of_le_ends h0 h1⟩

theorem mem_segment_shifted {dx : Rat} :
    r ∈ (p.shifted dx).segment (q.shifted dx) ↔ ⟨r.x - dx, r.y⟩ ∈ p.segment q := by
  have hx (t : Rat) : r.x = p.x + dx + t * (q.x + dx - (p.x + dx)) ↔
      r.x - dx = p.x + t * (q.x - p.x) := by
    rw [sub_eq_iff_eq_add]
    ring_nf
  simp only [segment, Set.mem_ofPred_eq, shifted_x, shifted_y, hx]

end Point

/-! ## Sides of a rectangle -/

/-- Both points lie on the same side of the rectangle. -/
inductive Bounds.Beside (b : Bounds Rat) (p q : Point Rat) : Prop where
  | left (hp : p.x ≤ b.minX) (hq : q.x ≤ b.minX)
  | right (hp : b.maxX ≤ p.x) (hq : b.maxX ≤ q.x)
  | above (hp : p.y ≤ b.minY) (hq : q.y ≤ b.minY)
  | below (hp : b.maxY ≤ p.y) (hq : b.maxY ≤ q.y)

theorem Bounds.Beside.disjoint {b : Bounds Rat} {p q : Point Rat} (h : b.Beside p q) :
    Disjoint (p.segment q) b.interior := by
  rw [Set.disjoint_left]
  rintro r hr ⟨hminX, hmaxX, hminY, hmaxY⟩
  cases h with
  | left hp hq => exact absurd ((Point.x_of_mem_segment hr).2 hp hq) (not_le.mpr hminX)
  | right hp hq => exact absurd ((Point.x_of_mem_segment hr).1 hp hq) (not_le.mpr hmaxX)
  | above hp hq => exact absurd ((Point.y_of_mem_segment hr).2 hp hq) (not_le.mpr hminY)
  | below hp hq => exact absurd ((Point.y_of_mem_segment hr).1 hp hq) (not_le.mpr hmaxY)

namespace Edge

/-! ## Corners -/

section Corners

variable {α : Type} {e : Edge α}

theorem ends_mem_points {part : Point α × Point α} (h : part ∈ e.segments) :
    part.1 ∈ e.points ∧ part.2 ∈ e.points := by
  obtain ⟨hp, hq⟩ := List.of_mem_zip h
  exact ⟨hp, List.mem_of_mem_tail hq⟩

variable [Scalar α] (dx : α)

theorem points_shifted : (e.shifted dx).points = e.points.map (.shifted dx) := by
  simp [points, shifted]

theorem segments_shifted :
    (e.shifted dx).segments =
      e.segments.map fun part => (part.1.shifted dx, part.2.shifted dx) := by
  rw [segments, points_shifted, ← List.map_tail, List.zip_map]
  rfl

end Corners

/-! ## Connectors -/

/-- The points of a connector. -/
def line (e : Edge Rat) : Set (Point Rat) := {r | ∃ part ∈ e.segments, r ∈ part.1.segment part.2}

/-- The connector has no point strictly inside the rectangle. -/
def Misses (e : Edge Rat) (b : Bounds Rat) : Prop := Disjoint e.line b.interior

variable {e : Edge Rat} {b : Bounds Rat}

theorem misses_iff :
    e.Misses b ↔ ∀ part ∈ e.segments, Disjoint (part.1.segment part.2) b.interior := by
  simp only [Misses, Set.disjoint_left, line, Set.mem_ofPred_eq]
  constructor
  · exact fun h part hpart r hr => h ⟨part, hpart, hr⟩
  · rintro h r ⟨part, hpart, hr⟩
    exact h part hpart hr

theorem misses_of_beside (h : ∀ part ∈ e.segments, b.Beside part.1 part.2) : e.Misses b :=
  misses_iff.mpr fun part hpart => (h part hpart).disjoint

theorem source_mem_line (e : Edge Rat) : e.source ∈ e.line := by
  cases hw : e.waypoints with
  | nil => exact ⟨(e.source, e.target), by simp [segments, points, hw], Point.source_mem_segment ..⟩
  | cons w ws => exact ⟨(e.source, w), by simp [segments, points, hw], Point.source_mem_segment ..⟩

theorem y_le_of_mem_line {m : Rat} (h : ∀ p ∈ e.points, p.y ≤ m) {r : Point Rat}
    (hr : r ∈ e.line) : r.y ≤ m := by
  obtain ⟨part, hpart, hr⟩ := hr
  obtain ⟨hp, hq⟩ := ends_mem_points hpart
  exact (Point.y_of_mem_segment hr).2 (h _ hp) (h _ hq)

theorem misses_of_le_minX (h : ∀ p ∈ e.points, p.x ≤ b.minX) : e.Misses b :=
  misses_of_beside fun _ hpart =>
    .left (h _ (ends_mem_points hpart).1) (h _ (ends_mem_points hpart).2)

theorem misses_of_maxX_le (h : ∀ p ∈ e.points, b.maxX ≤ p.x) : e.Misses b :=
  misses_of_beside fun _ hpart =>
    .right (h _ (ends_mem_points hpart).1) (h _ (ends_mem_points hpart).2)

theorem misses_of_le_minY (h : ∀ p ∈ e.points, p.y ≤ b.minY) : e.Misses b :=
  misses_of_beside fun _ hpart =>
    .above (h _ (ends_mem_points hpart).1) (h _ (ends_mem_points hpart).2)

theorem misses_of_maxY_le (h : ∀ p ∈ e.points, b.maxY ≤ p.y) : e.Misses b :=
  misses_of_beside fun _ hpart =>
    .below (h _ (ends_mem_points hpart).1) (h _ (ends_mem_points hpart).2)

/-! ## Shifts -/

variable (dx : Rat)

theorem mem_line_shifted {r : Point Rat} :
    r ∈ (e.shifted dx).line ↔ ⟨r.x - dx, r.y⟩ ∈ e.line := by
  simp only [line, segments_shifted, Set.mem_ofPred_eq, List.mem_map, exists_exists_and_eq_and,
    Point.mem_segment_shifted]

theorem misses_shifted : (e.shifted dx).Misses (b.shifted dx) ↔ e.Misses b := by
  simp only [Misses, Set.disjoint_left, mem_line_shifted, Bounds.mem_interior_shifted]
  constructor
  · intro h r hr hb
    have hback : (⟨r.x + dx - dx, r.y⟩ : Point Rat) = r := by rw [add_sub_cancel_right]
    exact h (a := ⟨r.x + dx, r.y⟩) (by rwa [hback]) (by rwa [hback])
  · exact fun h r hr hb => h hr hb

/-! ## What a connector covers -/

theorem covers_bounds {c : Bounds Rat} :
    c.Covers e.bounds ↔ ∀ p ∈ e.points, c.Covers (.ofPoint p) := by
  have hbounds : e.bounds =
      (e.points.map Bounds.ofPoint).foldl Bounds.merge (.ofPoint e.source) := by
    rw [List.foldl_map]
    rfl
  rw [hbounds, Bounds.covers_foldl_merge, List.forall_mem_map, and_iff_right_iff_imp]
  exact fun h => h _ List.mem_cons_self

theorem bounds_covers_point {p : Point Rat} (hp : p ∈ e.points) :
    e.bounds.Covers (.ofPoint p) := covers_bounds.mp (.refl _) p hp

end Edge

theorem Scene.bounds?_covers_point {p : Scene Rat} {bounds : Bounds Rat}
    (h : p.bounds? = some bounds) {e : Edge Rat} (he : e ∈ p.edges) {q : Point Rat}
    (hq : q ∈ e.points) : bounds.minX ≤ q.x ∧ q.x ≤ bounds.maxX := by
  have hedge := Bounds.mergeAll?_covers h _ (List.mem_append_right _ (List.mem_map_of_mem he))
  have hpoint := hedge.trans (Edge.bounds_covers_point hq)
  exact ⟨hpoint.minX_le, hpoint.le_maxX⟩

end Flowchart
