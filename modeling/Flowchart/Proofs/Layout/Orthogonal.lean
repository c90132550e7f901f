import Flowchart.Proofs.Geometry.Line
import Flowchart.Proofs.Layout.Induction
import Flowchart.Proofs.Scalar

/-!
# Orthogonal connectors

`sequence_orthogonal`: every connector of a layout is made of horizontal and vertical segments only,
in the arithmetic of the charts that are drawn, with any settings.

* `Edge.Rectilinear`: the ends of each segment have one and the same column or one and the same
  height. The coordinate that they share was copied and not computed twice, so no rounding can part
  them, and what is added to both when the edge is shifted keeps them equal (`Rectilinear.shifted`).
* A value that is not a number does not equal itself. That is all that lies between a rectilinear
  edge and one whose segments are seen to be orthogonal (`Rectilinear.isOrthogonal`).
-/

namespace Flowchart

open Scalar

variable {α : Type}

/-! ## One connector -/

namespace Edge

/-- The ends of each segment lie in the same column or at the same height. -/
def Rectilinear (e : Edge α) : Prop :=
  ∀ part ∈ e.segments, part.1.x = part.2.x ∨ part.1.y = part.2.y

section

variable {x a b lane : α} {p q : Point α}

theorem rectilinear_falseArm : (falseArm p x b).Rectilinear := by
  simp [Rectilinear, segments, points, falseArm]

theorem rectilinear_falseMerge : (falseMerge lane a x b).Rectilinear := by
  simp [Rectilinear, segments, points, falseMerge]

theorem rectilinear_loopBack : (loopBack p lane q).Rectilinear := by
  simp [Rectilinear, segments, points, loopBack]

theorem rectilinear_loopExit : (loopExit p lane x b).Rectilinear := by
  simp [Rectilinear, segments, points, loopExit]

variable [Scalar α]

/-- All corners lie in the column, those in the middle of a column that is not a number as well. -/
theorem rectilinear_down {kind : EdgeKind} : (down kind x a b).Rectilinear := by
  unfold down route
  split <;> simp [Rectilinear, segments, points]

theorem rectilinear_trueArm : (trueArm x a b).Rectilinear :=
  show (down .trueArm x a b).Rectilinear from rectilinear_down

end

namespace Rectilinear

variable [Scalar α] {e : Edge α}

theorem shifted (h : e.Rectilinear) (dx : α) : (e.shifted dx).Rectilinear := by
  simp only [Rectilinear, segments_shifted, List.forall_mem_map]
  exact fun part hpart => (h part hpart).imp (congrArg (· + dx)) (congrArg (· + zero))

theorem isOrthogonal (h : e.Rectilinear)
    (hnum : ∀ q ∈ e.points, IsNumber q.x ∧ IsNumber q.y) : e.isOrthogonal = true := by
  refine List.all_eq_true.mpr fun (a, b) hpart => Bool.or_eq_true_iff.mpr ?_
  obtain ⟨hx, hy⟩ := hnum a (ends_mem_points hpart).1
  obtain hshared | hshared := h _ hpart
  · exact .inl (hshared ▸ hx)
  · exact .inr (hshared ▸ hy)

end Rectilinear

end Edge

/-! ## Whole layouts -/

/-- All edges of the scene are rectilinear. -/
def Scene.Rectilinear (p : Scene α) : Prop := ∀ e ∈ p.edges, e.Rectilinear

variable [Scalar α]

theorem Scene.Rectilinear.shifted {p : Scene α} (h : p.Rectilinear) (dx : α) :
    (p.shifted dx).Rectilinear :=
  List.forall_mem_map.mpr fun e he => (h e he).shifted dx

namespace Layout

open Edge

/-- Every connector that a layout adds to its parts is rectilinear, and the parts stay so where they
are shifted. -/
theorem keeps_rectilinear (s : Settings α) :
    Keeps s (fun _ _ _ _ p => p.Rectilinear) fun _ _ _ _ p => p.Rectilinear where
  step _ _ _ _ _ := by simp [Scene.Rectilinear, stepScene]
  branch _ x y c t f whenTrue whenFalse ht hf := by
    have hshifted := hf.shifted (falseShift s (diamond s .branch c x y).occupied whenTrue whenFalse)
    simp only [Scene.Rectilinear, branchScene, List.forall_mem_cons, List.forall_mem_append]
    exact ⟨rectilinear_trueArm, rectilinear_falseArm, ht, rectilinear_down, hshifted,
      rectilinear_falseMerge, by simp⟩
  loop _ x y c nodes body hb := by
    simp only [Scene.Rectilinear, loopScene, List.forall_mem_cons, List.forall_mem_append]
    exact ⟨rectilinear_trueArm, hb, rectilinear_loopBack, rectilinear_loopExit, by simp⟩
  nil _ _ _ := by simp [Scene.Rectilinear, Scene.empty]
  cons _ x y n ns first rest hf hr := by
    have hnext : ∀ e ∈ sequenceEdges s n ns x y first.endY, e.Rectilinear := by
      unfold sequenceEdges
      split
      · exact List.forall_mem_singleton.mpr rectilinear_down
      · simp
    simp only [Scene.Rectilinear, columnScene, List.forall_mem_append]
    exact ⟨⟨hf, hnext⟩, hr⟩

/-- **Orthogonal connectors.** Take any layout in the arithmetic of charts, whatever the settings
and wherever it begins, and move it right any number of times. Each of its edges none of whose
coordinates is NaN has horizontal and vertical segments only. -/
theorem sequence_orthogonal {s : Settings Float32} {nodes : List Node} {x y : Float32} {depth : Nat}
    {p : Scene Float32} (h : sequence s nodes x y depth = .ok p) (dxs : List Float32) :
    ∀ e ∈ (dxs.foldl (fun p dx => p.shifted dx) p).edges,
      (∀ q ∈ e.points, q.x.isNaN = false ∧ q.y.isNaN = false) → e.isOrthogonal = true := by
  have hmoved : (dxs.foldl (fun p dx => p.shifted dx) p).Rectilinear := by
    have hp := (keeps_rectilinear s).of_sequence h
    clear h
    induction dxs generalizing p with
    | nil => exact hp
    | cons dx dxs ih => exact ih (hp.shifted dx)
  intro e he hnum
  exact (hmoved e he).isOrthogonal fun q hq =>
    ⟨isNumber_iff.mpr (hnum q hq).1, isNumber_iff.mpr (hnum q hq).2⟩

/-- A loop in a false branch that is shifted past the true branch, at coordinates that round. -/
theorem shifted_loop_orthogonal :
    let nodes : List Node := [.branch "a" [.loop "b" [.stop]] [.loop "c" [.stop, .stop]]]
    let s : Settings Float32 := { Settings.default with horizontalGap := -0.3 }
    ∃ p, sequence s nodes 0.1 0.7 0 = .ok p ∧ ∃ e ∈ (p.shifted 0.1).edges, e.kind = .loopBack ∧
      (∀ q ∈ e.points, q.x.isNaN = false ∧ q.y.isNaN = false) ∧ e.isOrthogonal = true := by
  intro nodes s
  have h : sequence s nodes 0.1 0.7 0 = .ok _ := rfl
  refine ⟨_, h, _, List.get_mem _ ⟨8, by decide +kernel⟩, by decide +kernel, by decide +kernel, ?_⟩
  exact sequence_orthogonal h [0.1] _ (List.get_mem _ ⟨8, by decide +kernel⟩) (by decide +kernel)

end Layout

end Flowchart
