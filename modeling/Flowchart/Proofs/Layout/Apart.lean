import Flowchart.Proofs.Geometry
import Flowchart.Proofs.Layout.Induction

/-!
# No two shapes overlap

In exact arithmetic the footprints of a layout have pairwise disjoint interiors
(`sequence_boxes_pairwise_apart`).

The proof follows the layout. What is laid out from height `y` down keeps to the strip between `y`
and its own end (`Stacked`), so the parts of a column, and a diamond and what belongs to it, lie in
strips one below the other. The two branches of an `if` share a strip; there the shift of the false
branch keeps them apart (`maxX_le_minX_shifted`).
-/

namespace Flowchart.Layout

open Scalar

/-- The footprints of two boxes do not overlap. -/
def BoxApart (a b : Box Rat) : Prop := Disjoint a.occupied.interior b.occupied.interior

/-- The sizes and distances that keep shapes apart are not negative. -/
structure Spacious (s : Settings Rat) : Prop where
  nodeHeight : 0 ≤ s.nodeHeight
  verticalGap : 0 ≤ s.verticalGap
  decisionHeight : 0 ≤ s.decisionHeight
  laneClearance : 0 ≤ s.laneClearance

theorem spacious_default : Spacious .default :=
  ⟨Nat.cast_nonneg _, Nat.cast_nonneg _, Nat.cast_nonneg _, Nat.cast_nonneg _⟩

/-- No shape has a negative height, and neither has the gap below it. -/
structure Tall (s : Settings Rat) : Prop where
  nodeHeight : 0 ≤ s.nodeHeight
  verticalGap : 0 ≤ s.verticalGap
  decisionHeight : 0 ≤ s.decisionHeight

theorem Spacious.tall {s : Settings Rat} (hs : Spacious s) : Tall s :=
  ⟨hs.nodeHeight, hs.verticalGap, hs.decisionHeight⟩

/-- What is laid out from height `y` down lies in the strip from `y` to its end, and no two of its
boxes overlap. -/
structure Stacked (y : Rat) (p : Scene Rat) : Prop where
  le_endY : y ≤ p.endY
  le_minY : ∀ b ∈ p.boxes, y ≤ b.occupied.minY
  maxY_le : ∀ b ∈ p.boxes, b.occupied.maxY ≤ p.endY
  apart : p.boxes.Pairwise BoxApart

variable {s : Settings Rat} {x y : Rat}

theorem Stacked.empty (y : Rat) : Stacked y (.empty y) :=
  ⟨le_rfl, by simp [Scene.empty], by simp [Scene.empty], .nil⟩

theorem Stacked.shifted {p : Scene Rat} (h : Stacked y p) (dx : Rat) :
    Stacked y (p.shifted dx) where
  le_endY := h.le_endY
  le_minY := by
    simp only [Scene.shifted, List.forall_mem_map, Box.occupied_shifted]
    exact h.le_minY
  maxY_le := by
    simp only [Scene.shifted, List.forall_mem_map, Box.occupied_shifted]
    exact h.maxY_le
  apart := by
    rw [Scene.shifted, List.pairwise_map]
    refine h.apart.imp fun hab => ?_
    rw [BoxApart, Box.occupied_shifted, Box.occupied_shifted]
    exact Bounds.disjoint_shifted dx hab

theorem Stacked.step (hs : Spacious s) (kind : StepKind) (label : String) :
    Stacked y (stepScene s kind label x y) where
  le_endY := by
    have := hs.nodeHeight
    have := hs.verticalGap
    simp only [stepScene]
    linarith
  le_minY := by simp [stepScene, minY_stepBox]
  maxY_le := by
    have := hs.verticalGap
    simp only [stepScene, List.mem_singleton, forall_eq, maxY_stepBox]
    linarith
  apart := List.pairwise_singleton ..

/-- Boxes of one strip and boxes of a strip below it are apart. -/
theorem boxApart_of_strips {as bs : List (Box Rat)} {m : Rat}
    (ha : ∀ a ∈ as, a.occupied.maxY ≤ m) (hb : ∀ b ∈ bs, m ≤ b.occupied.minY) :
    ∀ a ∈ as, ∀ b ∈ bs, BoxApart a b :=
  fun a hma b hmb => Bounds.disjoint_of_maxY_le ((ha a hma).trans (hb b hmb))

theorem Stacked.cons {n : Node} {ns : List Node} {first rest : Scene Rat} (hf : Stacked y first)
    (hr : Stacked first.endY rest) : Stacked y (columnScene s x y n ns first rest) where
  le_endY := hf.le_endY.trans hr.le_endY
  le_minY b hb := by
    rcases List.mem_append.mp hb with hb | hb
    · exact hf.le_minY b hb
    · exact hf.le_endY.trans (hr.le_minY b hb)
  maxY_le b hb := by
    rcases List.mem_append.mp hb with hb | hb
    · exact (hf.maxY_le b hb).trans hr.le_endY
    · exact hr.maxY_le b hb
  apart := List.pairwise_append.mpr
    ⟨hf.apart, hr.apart, boxApart_of_strips hf.maxY_le hr.le_minY⟩

theorem le_innerY (hs : Tall s) : y ≤ innerY s y ∧ armY s y ≤ innerY s y := by
  have := hs.verticalGap
  have := hs.decisionHeight
  simp only [innerY, armY]
  constructor <;> linarith

/-- A diamond above a scene that keeps to the strip below it. -/
theorem Stacked.decision (hs : Spacious s) {p : Scene Rat} (h : Stacked (innerY s y) p)
    (kind : NodeKind) (c : String) (edges : List (Edge Rat)) :
    Stacked y ⟨diamond s kind c x y :: p.boxes, edges, p.endY + s.verticalGap⟩ := by
  obtain ⟨hy, harm⟩ := le_innerY (y := y) hs.tall
  have hgap := hs.verticalGap
  have hend := h.le_endY
  constructor
  case le_endY => show y ≤ p.endY + s.verticalGap; linarith
  case le_minY =>
    rw [List.forall_mem_cons, minY_diamond]
    exact ⟨le_rfl, fun b hb => hy.trans (h.le_minY b hb)⟩
  case maxY_le =>
    rw [List.forall_mem_cons, maxY_diamond]
    refine ⟨show armY s y ≤ p.endY + s.verticalGap by linarith, fun b hb => ?_⟩
    have := h.maxY_le b hb
    show b.occupied.maxY ≤ p.endY + s.verticalGap
    linarith
  case apart =>
    refine List.pairwise_cons.mpr ⟨fun b hb => Bounds.disjoint_of_maxY_le ?_, h.apart⟩
    rw [maxY_diamond]
    exact harm.trans (h.le_minY b hb)

theorem Stacked.loop (hs : Spacious s) {c : String} {nodes : List Node} {body : Scene Rat}
    (h : Stacked (innerY s y) body) : Stacked y (loopScene s c x y nodes body) :=
  h.decision hs .loop c _

/-! ## The branches of an `if` -/

/-- Two scenes in one strip, the first left of the second. -/
theorem Stacked.beside {t f : Scene Rat} (ht : Stacked y t) (hf : Stacked y f)
    (hx : ∀ a ∈ t.boxes, ∀ b ∈ f.boxes, a.occupied.maxX ≤ b.occupied.minX)
    (edges : List (Edge Rat)) : Stacked y ⟨t.boxes ++ f.boxes, edges, max t.endY f.endY⟩ where
  le_endY := ht.le_endY.trans (le_max_left ..)
  le_minY b hb := by
    rcases List.mem_append.mp hb with hb | hb
    · exact ht.le_minY b hb
    · exact hf.le_minY b hb
  maxY_le b hb := by
    rcases List.mem_append.mp hb with hb | hb
    · exact (ht.maxY_le b hb).trans (le_max_left ..)
    · exact (hf.maxY_le b hb).trans (le_max_right ..)
  apart := List.pairwise_append.mpr
    ⟨ht.apart, hf.apart, fun a ha b hb => Bounds.disjoint_of_maxX_le (hx a ha b hb)⟩

/-- The shift of a false branch takes it past everything in the true branch. -/
theorem maxX_le_minX_shifted (hs : Spacious s) (d : Bounds Rat) {t f : Scene Rat} {a b : Box Rat}
    (ha : a ∈ t.boxes) (hb : b ∈ (f.shifted (falseShift s d t f)).boxes) :
    a.occupied.maxX ≤ b.occupied.minX := by
  obtain ⟨b, hbf, rfl⟩ := List.mem_map.mp hb
  rw [Box.occupied_shifted]
  cases hf : f.bounds? with
  | none => simp [Scene.boxes_eq_nil_of_bounds?_eq_none hf] at hbf
  | some fb =>
    cases ht : t.bounds? with
    | none => simp [Scene.boxes_eq_nil_of_bounds?_eq_none ht] at ha
    | some tb =>
      have hmax := (Scene.bounds?_covers_box ht ha).le_maxX
      have hmin := (Scene.bounds?_covers_box hf hbf).minX_le
      have hclear := hs.laneClearance
      have hshift : max tb.maxX d.maxX + s.laneClearance - fb.minX ≤ falseShift s d t f := by
        simp only [falseShift, hf, ht]
        exact le_max_left ..
      have := le_max_left tb.maxX d.maxX
      show a.occupied.maxX ≤ b.occupied.minX + falseShift s d t f
      linarith

theorem Stacked.branch (hs : Spacious s) {c : String} {t f : List Node}
    {whenTrue whenFalse : Scene Rat} (ht : Stacked (innerY s y) whenTrue)
    (hf : Stacked (innerY s y) whenFalse) :
    Stacked y (branchScene s c x y t f whenTrue whenFalse) :=
  (ht.beside (hf.shifted _) (fun _ ha _ hb => maxX_le_minX_shifted hs _ ha hb) []).decision hs
    .branch c _

/-! ## Whole layouts -/

theorem keeps_stacked (hs : Spacious s) :
    Keeps s (fun _ _ y _ p => Stacked y p) (fun _ _ y _ p => Stacked y p) where
  step _ _ _ := Stacked.step hs
  branch _ _ _ _ _ _ _ _ := Stacked.branch hs
  loop _ _ _ _ _ _ := Stacked.loop hs
  nil _ _ := Stacked.empty
  cons _ _ _ _ _ _ _ := Stacked.cons

/-- **No overlap.** Any two boxes of a layout have footprints with disjoint interiors. -/
theorem sequence_boxes_pairwise_apart (hs : Spacious s) {nodes : List Node} {depth : Nat}
    {p : Scene Rat} (h : sequence s nodes x y depth = .ok p) : p.boxes.Pairwise BoxApart :=
  ((keeps_stacked hs).of_sequence h).apart

/-- An `if` whose false branch has to move past two columns of its true branch. -/
theorem nested_branches_apart :
    Spacious .default ∧ ∃ p, sequence (.default : Settings Rat)
      [.branch "a" [.branch "b" [.stop] [.loop "c" [.stop]]]
        [.loop "d" [.branch "e" [] [.stop]], .stop], .stop] 400 50 0 = .ok p ∧
      p.boxes.length = 10 ∧ p.boxes.Pairwise BoxApart := by
  have h : sequence (.default : Settings Rat)
      [.branch "a" [.branch "b" [.stop] [.loop "c" [.stop]]]
        [.loop "d" [.branch "e" [] [.stop]], .stop], .stop] 400 50 0 = .ok _ := rfl
  exact ⟨spacious_default, _, h, rfl, sequence_boxes_pairwise_apart spacious_default h⟩

end Flowchart.Layout
