import Flowchart.Proofs.Layout.Figure
import Flowchart.Proofs.Layout.Frame

/-!
# How far down a layout reaches

`sequence_extent`: a layout ends as far below its beginning as its nodes are high (`heightAll`), and
all of its shapes and connectors keep to what is in between. The branches of an `if` come together
one gap below the end of the lower one (`Figure.MergesBelow`).
-/

namespace Flowchart

namespace Layout

mutual

/-- The height of a node with the gaps below it: one below a step, and one below each of the diamond
of a decision and the highest of the sequences inside it. -/
def height (s : Settings Rat) : Node → Rat
  | .step .. => s.nodeHeight + s.verticalGap
  | .branch _ whenTrue whenFalse => s.decisionHeight + s.verticalGap +
      max (heightAll s whenTrue) (heightAll s whenFalse) + s.verticalGap
  | .loop _ body => s.decisionHeight + s.verticalGap + heightAll s body + s.verticalGap

/-- The heights of the nodes of a sequence together. -/
def heightAll (s : Settings Rat) : List Node → Rat
  | [] => 0
  | n :: ns => height s n + heightAll s ns

end

end Layout

open Layout

/-- Both ways out of an `if` end one gap below the end of the lower one of its branches. -/
def Figure.MergesBelow (s : Settings Rat) : Figure → Prop
  | branch box _ _ whenTrue trueMerge whenFalse falseMerge =>
    trueMerge.target.y = innerY s box.occupied.minY +
      max (heightAll s (nodeAll whenTrue)) (heightAll s (nodeAll whenFalse)) + s.verticalGap ∧
    falseMerge.target.y = trueMerge.target.y
  | step .. | loop .. => True

namespace Figure

variable {s : Settings Rat} {f : Figure}

theorem MergesBelow.shifted (h : f.MergesBelow s) (dx : Rat) : (f.shifted dx).MergesBelow s := by
  cases f with
  | step | loop => trivial
  | branch =>
    simp only [Figure.shifted, MergesBelow, nodeAll_shifted, Box.occupied_shifted, Edge.shifted,
      Point.shifted_y]
    exact h

theorem MergesBelow.followed (h : f.MergesBelow s) (next : Option (Edge Rat)) :
    (f.followed next).MergesBelow s := by
  cases f with
  | step => trivial
  | branch | loop => exact h

end Figure

namespace Layout

open Figure

variable {s : Settings Rat} {x y : Rat}

/-- The lower one of two branches that begin at one height. -/
theorem greatest_endY {whenTrue whenFalse : Scene Rat} {a b : Rat}
    (ht : whenTrue.endY = y + a) (hf : whenFalse.endY = y + b) :
    Scalar.greatest whenTrue.endY whenFalse.endY = y + max a b := by
  rw [ht, hf]
  exact max_add_add_left y a b

/-- What is laid out ends below its height, whatever the signs of the settings. -/
theorem keepsDrawn_height : KeepsDrawn s
    (fun _ y n p f => ShowsNode n p f ∧ p.endY = y + height s n ∧ ∀ g ∈ f.parts, g.MergesBelow s)
    fun _ y nodes p fs => Shows nodes p fs ∧ p.endY = y + heightAll s nodes ∧
      ∀ g ∈ partsAll fs, g.MergesBelow s := by
  constructor
  case step =>
    intro x y kind label
    exact ⟨keepsDrawn_shows.step x y kind label, rfl, List.forall_mem_singleton.mpr trivial⟩
  case branch =>
    rintro x y c t f whenTrue whenFalse ts fs ⟨ht, htEnd, hts⟩ ⟨hf, hfEnd, hfs⟩
    have hmerge := greatest_endY htEnd hfEnd
    refine ⟨keepsDrawn_shows.branch x y c t f whenTrue whenFalse ts fs ht hf, ?_,
      List.forall_mem_cons.mpr ⟨?_, List.forall_mem_append.mpr ⟨hts, ?_⟩⟩⟩
    · show Scalar.greatest whenTrue.endY whenFalse.endY + s.verticalGap = _
      rw [hmerge, innerY, armY, height]
      ring
    · refine ⟨?_, by rw [Edge.target_down]; rfl⟩
      rw [Edge.target_down, minY_diamond, nodeAll_shifted, ht.nodes, hf.nodes, hmerge]
    · exact forall_partsAll_shifted (fun _ hg => MergesBelow.shifted hg _) hfs
  case loop =>
    rintro x y c nodes body fs ⟨hb, hbEnd, hfs⟩
    refine ⟨keepsDrawn_shows.loop x y c nodes body fs hb, ?_,
      List.forall_mem_cons.mpr ⟨trivial, hfs⟩⟩
    show body.endY + s.verticalGap = _
    rw [hbEnd, innerY, armY, height]
    ring
  case nil =>
    intro x y
    exact ⟨(keepsDrawn_shows (s := s)).nil x y, (add_zero y).symm, by simp [partsAll]⟩
  case cons =>
    rintro x y n ns first rest f fs ⟨hn, hnEnd, hparts⟩ ⟨hns, hnsEnd, hfs⟩
    refine ⟨keepsDrawn_shows.cons x y n ns first rest f fs hn hns, ?_,
      forall_partsAll_followed (fun hf => MergesBelow.followed hf _) hparts hfs⟩
    rw [columnScene, hnsEnd, hnEnd, heightAll, add_assoc]

/-- **Height.** A layout ends as far below its beginning as its nodes are high. All footprints and
all corners of connectors lie in between. In every `if` of it the branches come together one gap
below the end of the lower one. -/
theorem sequence_extent (hs : Tall s) {nodes : List Node} {depth : Nat} {p : Scene Rat}
    (h : sequence s nodes x y depth = .ok p) :
    p.endY = y + heightAll s nodes ∧
    (∀ b ∈ p.boxes, y ≤ b.occupied.minY ∧ b.occupied.maxY ≤ p.endY) ∧
    (∀ e ∈ p.edges, ∀ q ∈ e.points, y ≤ q.y ∧ q.y ≤ p.endY) ∧
    ∃ fs, Shows nodes p fs ∧ ∀ f ∈ partsAll fs, f.MergesBelow s := by
  obtain ⟨hshows, hend, hmerges⟩ := keepsDrawn_height.of_sequence h
  have hframed := (keeps_framed hs).of_sequence h
  exact ⟨hend, fun b hb => ⟨hframed.le_minY b hb, hframed.maxY_le hs b hb⟩, hframed.points,
    _, hshows, hmerges⟩

/-- A loop ends the true branch of an `if` and is higher than its false branch. -/
theorem loop_in_branch_extent :
    Tall .default ∧ ∃ p, sequence (.default : Settings Rat)
      [.start, .branch "a" [.stop, .loop "b" [.branch "c" [] [.stop]]] [.stop, .stop], .stop]
        400 50 0 = .ok p ∧ p.endY = 2168 ∧
      p.endY = 50 + heightAll .default
        [.start, .branch "a" [.stop, .loop "b" [.branch "c" [] [.stop]]] [.stop, .stop], .stop] ∧
      (∀ b ∈ p.boxes, 50 ≤ b.occupied.minY ∧ b.occupied.maxY ≤ p.endY) ∧
      (∀ e ∈ p.edges, ∀ q ∈ e.points, 50 ≤ q.y ∧ q.y ≤ p.endY) ∧
      ∃ fs, Shows [.start, .branch "a" [.stop, .loop "b" [.branch "c" [] [.stop]]] [.stop, .stop],
        .stop] p fs ∧ ∀ f ∈ partsAll fs, f.MergesBelow .default := by
  have h : sequence (.default : Settings Rat)
      [.start, .branch "a" [.stop, .loop "b" [.branch "c" [] [.stop]]] [.stop, .stop], .stop]
        400 50 0 = .ok _ := rfl
  exact ⟨spacious_default.tall, _, h, by decide +kernel, sequence_extent spacious_default.tall h⟩

end Layout

end Flowchart
