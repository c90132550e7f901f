import Mathlib.Data.Set.Disjoint
import Mathlib.Order.CompletePartialOrder
import Mathlib.Tactic.Linarith
import Mathlib.Tactic.Ring
import Flowchart.Layout

/-!
# Rectangles in exact arithmetic

* `Bounds.interior`: the points strictly inside a rectangle. Two rectangles one of which ends
  before the other begins, in either direction, have disjoint interiors.
* `Bounds.Covers`: one rectangle lies in another. A merged rectangle lies in all that hold its parts
  (`covers_merge`, `covers_mergeAll?`), and holds them itself (`Scene.bounds?_covers_box`).
* The footprints of steps and diamonds (`minY_stepBox`, `minY_diamond`, …) and of shifted boxes
  (`Box.occupied_shifted`).
-/

namespace Flowchart

open Scalar

/-! ## Interiors -/

/-- The points strictly inside a rectangle. -/
def Bounds.interior (b : Bounds Rat) : Set (Point Rat) :=
  {p | b.minX < p.x ∧ p.x < b.maxX ∧ b.minY < p.y ∧ p.y < b.maxY}

theorem Bounds.disjoint_of_maxX_le {a b : Bounds Rat} (h : a.maxX ≤ b.minX) :
    Disjoint a.interior b.interior := by
  rw [Set.disjoint_left]
  rintro p ⟨-, hp, -⟩ ⟨hq, -⟩
  linarith

theorem Bounds.disjoint_of_maxY_le {a b : Bounds Rat} (h : a.maxY ≤ b.minY) :
    Disjoint a.interior b.interior := by
  rw [Set.disjoint_left]
  rintro p ⟨-, -, -, hp⟩ ⟨-, -, hq, -⟩
  linarith

/-- The rectangle moved right by `dx`. -/
def Bounds.shifted (dx : Rat) (b : Bounds Rat) : Bounds Rat :=
  { b with minX := b.minX + dx, maxX := b.maxX + dx }

theorem Bounds.mem_interior_shifted {dx : Rat} {b : Bounds Rat} {p : Point Rat} :
    p ∈ (b.shifted dx).interior ↔ ⟨p.x - dx, p.y⟩ ∈ b.interior := by
  simp only [interior, shifted, Set.mem_ofPred_eq, lt_sub_iff_add_lt, sub_lt_iff_lt_add]

/-- Two rectangles moved by the same distance stay disjoint. -/
theorem Bounds.disjoint_shifted (dx : Rat) {a b : Bounds Rat} (h : Disjoint a.interior b.interior) :
    Disjoint (a.shifted dx).interior (b.shifted dx).interior := by
  rw [Set.disjoint_left] at h ⊢
  intro p ha hb
  rw [mem_interior_shifted] at ha hb
  exact h ha hb

/-! ## Rectangles that cover others -/

/-- `b` holds `a`. -/
structure Bounds.Covers (b a : Bounds Rat) : Prop where
  minX_le : b.minX ≤ a.minX
  minY_le : b.minY ≤ a.minY
  le_maxX : a.maxX ≤ b.maxX
  le_maxY : a.maxY ≤ b.maxY

namespace Bounds

theorem Covers.refl (b : Bounds Rat) : b.Covers b := ⟨le_rfl, le_rfl, le_rfl, le_rfl⟩

theorem Covers.trans {a b c : Bounds Rat} (h : c.Covers b) (g : b.Covers a) : c.Covers a :=
  ⟨h.minX_le.trans g.minX_le, h.minY_le.trans g.minY_le, g.le_maxX.trans h.le_maxX,
    g.le_maxY.trans h.le_maxY⟩

theorem merge_covers_left (a b : Bounds Rat) : (a.merge b).Covers a :=
  ⟨min_le_left .., min_le_left .., le_max_left .., le_max_left ..⟩

theorem merge_covers_right (a b : Bounds Rat) : (a.merge b).Covers b :=
  ⟨min_le_right .., min_le_right .., le_max_right .., le_max_right ..⟩

/-- A rectangle holds two others if and only if it holds the least one that does. -/
theorem covers_merge {a b c : Bounds Rat} : c.Covers (a.merge b) ↔ c.Covers a ∧ c.Covers b := by
  constructor
  · exact fun h => ⟨h.trans (merge_covers_left a b), h.trans (merge_covers_right a b)⟩
  · rintro ⟨ha, hb⟩
    exact ⟨le_min ha.minX_le hb.minX_le, le_min ha.minY_le hb.minY_le,
      max_le ha.le_maxX hb.le_maxX, max_le ha.le_maxY hb.le_maxY⟩

theorem covers_foldl_merge {bs : List (Bounds Rat)} {b c : Bounds Rat} :
    c.Covers (bs.foldl merge b) ↔ c.Covers b ∧ ∀ a ∈ bs, c.Covers a := by
  induction bs generalizing b with
  | nil => simp
  | cons a bs ih => rw [List.foldl_cons, ih, covers_merge, List.forall_mem_cons, and_assoc]

theorem covers_mergeAll? {bs : List (Bounds Rat)} {b c : Bounds Rat} (h : mergeAll? bs = some b) :
    c.Covers b ↔ ∀ a ∈ bs, c.Covers a := by
  cases bs with
  | nil => cases h
  | cons a bs =>
    obtain rfl := Option.some.inj h
    rw [covers_foldl_merge, List.forall_mem_cons]

theorem mergeAll?_covers {bs : List (Bounds Rat)} {b : Bounds Rat} (h : mergeAll? bs = some b) :
    ∀ a ∈ bs, b.Covers a := (covers_mergeAll? h).mp (.refl b)

theorem mergeAll?_eq_none {bs : List (Bounds Rat)} : mergeAll? bs = none ↔ bs = [] := by
  cases bs <;> simp [mergeAll?]

end Bounds

namespace Scene

variable {p : Scene Rat} {bounds : Bounds Rat}

theorem bounds?_covers_box (h : p.bounds? = some bounds) {b : Box Rat} (hb : b ∈ p.boxes) :
    bounds.Covers b.occupied :=
  Bounds.mergeAll?_covers h _ (List.mem_append_left _ (List.mem_map_of_mem hb))

theorem boxes_eq_nil_of_bounds?_eq_none (h : p.bounds? = none) : p.boxes = [] := by
  have := Bounds.mergeAll?_eq_none.mp h
  simpa using (List.append_eq_nil_iff.mp this).1

theorem edges_eq_nil_of_bounds?_eq_none (h : p.bounds? = none) : p.edges = [] := by
  have := Bounds.mergeAll?_eq_none.mp h
  simpa using (List.append_eq_nil_iff.mp this).2

end Scene

/-! ## Footprints -/

theorem Box.occupied_shifted (dx : Rat) (b : Box Rat) :
    (b.shifted dx).occupied = b.occupied.shifted dx := by
  simp only [Box.shifted, Box.occupied, Box.center, Bounds.around, Bounds.shifted, half]
  congr 1 <;> ring

namespace Layout

variable (s : Settings Rat) (x y : Rat)

/-- A step takes its height, from its top down. -/
theorem minY_stepBox (kind : StepKind) (label : String) :
    (stepBox s kind label x y).occupied.minY = y := by
  simp only [stepBox, Box.occupied, Box.center, Bounds.around]
  ring

theorem maxY_stepBox (kind : StepKind) (label : String) :
    (stepBox s kind label x y).occupied.maxY = y + s.nodeHeight := by
  simp only [stepBox, Box.occupied, Box.center, Bounds.around, half, Scalar.ofNat]
  ring

/-- A diamond takes the height of decisions, whatever the size of its square. -/
theorem minY_diamond (kind : NodeKind) (c : String) :
    (diamond s kind c x y).occupied.minY = y := by
  simp only [diamond, Box.occupied, Box.center, Bounds.around, half, Scalar.ofNat]
  ring

theorem maxY_diamond (kind : NodeKind) (c : String) :
    (diamond s kind c x y).occupied.maxY = armY s y := by
  simp only [diamond, Box.occupied, Box.center, Bounds.around, armY, half, Scalar.ofNat]
  ring

end Layout

end Flowchart
