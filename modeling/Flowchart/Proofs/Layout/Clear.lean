import Flowchart.Proofs.Layout.Figure
import Flowchart.Proofs.Layout.Frame

/-!
# Where connectors run through shapes

`sequence_clear_iff`: no connector of a layout runs through a shape, except where an `if` without a
false branch has a shape of its true branch across the column that it goes down instead.

* `Clear`: no connector of a list has a point strictly inside the footprint of a box of another.
* The proof compares each connector of a decision with each shape below it. What the two branches of
  an `if` hold is told apart by a vertical line (`exists_divide`). One comparison is left open: the
  way past the true branch, where there is no false branch to be shifted aside.
-/

namespace Flowchart

open Scalar

/-! ## Clear connectors -/

/-- No connector runs through a box. -/
def Clear (es : List (Edge Rat)) (bs : List (Box Rat)) : Prop :=
  ∀ e ∈ es, ∀ b ∈ bs, e.Misses b.occupied

namespace Clear

variable {e : Edge Rat} {es es' : List (Edge Rat)} {b : Box Rat} {bs bs' : List (Box Rat)}

theorem nil_left : Clear [] bs := by simp [Clear]

theorem append_left : Clear (es ++ es') bs ↔ Clear es bs ∧ Clear es' bs := by
  simp only [Clear, List.forall_mem_append]

theorem append_right : Clear es (bs ++ bs') ↔ Clear es bs ∧ Clear es bs' := by
  simp only [Clear, List.forall_mem_append, forall_and]

theorem cons_left : Clear (e :: es) bs ↔ Clear [e] bs ∧ Clear es bs := by
  rw [← append_left, List.singleton_append]

theorem cons_right : Clear es (b :: bs) ↔ Clear es [b] ∧ Clear es bs := by
  rw [← append_right, List.singleton_append]

theorem shifted (dx : Rat) : Clear (es.map (.shifted dx)) (bs.map (.shifted dx)) ↔ Clear es bs := by
  simp only [Clear, List.forall_mem_map, Box.occupied_shifted, Edge.misses_shifted]

/-- Connectors of one strip and boxes of a strip below it. -/
theorem of_above {m : Rat} (he : ∀ e ∈ es, ∀ q ∈ e.points, q.y ≤ m)
    (hb : ∀ b ∈ bs, m ≤ b.occupied.minY) : Clear es bs :=
  fun e hes b hbs => Edge.misses_of_le_minY fun q hq => (he e hes q hq).trans (hb b hbs)

theorem of_below {m : Rat} (he : ∀ e ∈ es, ∀ q ∈ e.points, m ≤ q.y)
    (hb : ∀ b ∈ bs, b.occupied.maxY ≤ m) : Clear es bs :=
  fun e hes b hbs => Edge.misses_of_maxY_le fun q hq => (hb b hbs).trans (he e hes q hq)

theorem of_left {m : Rat} (he : ∀ e ∈ es, ∀ q ∈ e.points, q.x ≤ m)
    (hb : ∀ b ∈ bs, m ≤ b.occupied.minX) : Clear es bs :=
  fun e hes b hbs => Edge.misses_of_le_minX fun q hq => (he e hes q hq).trans (hb b hbs)

theorem of_right {m : Rat} (he : ∀ e ∈ es, ∀ q ∈ e.points, m ≤ q.x)
    (hb : ∀ b ∈ bs, b.occupied.maxX ≤ m) : Clear es bs :=
  fun e hes b hbs => Edge.misses_of_maxX_le fun q hq => (hb b hbs).trans (he e hes q hq)

/-- One connector, each straight part of which lies beside each box. -/
theorem of_beside (h : ∀ part ∈ e.segments, ∀ b ∈ bs, b.occupied.Beside part.1 part.2) :
    Clear [e] bs := by
  intro e' he b hb
  obtain rfl := List.mem_singleton.mp he
  exact Edge.misses_of_beside fun part hpart => h part hpart b hb

end Clear

/-- An `if` without a false branch has no box of its true branch across its way past the branch. -/
def Figure.LaneFree : Figure → Prop
  | branch _ _ _ whenTrue _ whenFalse falseMerge => whenFalse = [] →
      ∀ b ∈ boxesAll whenTrue, ∀ q ∈ b.occupied.interior, q.x ≠ falseMerge.source.x
  | step .. | loop .. => True

namespace Layout

open Figure

/-- The sizes and distances that keep connectors apart from shapes. -/
structure Roomy (s : Settings Rat) : Prop extends Spacious s where
  nodeWidth : 0 ≤ s.nodeWidth
  decisionHalfWidth : 0 ≤ s.decisionHalfWidth
  le_horizontalGap : s.decisionHalfWidth ≤ s.horizontalGap
  le_loopReturnOffset : s.decisionHalfWidth ≤ s.loopReturnOffset
  le_loopExitOffset : s.decisionHalfWidth ≤ s.loopExitOffset

theorem roomy_default : Roomy .default where
  toSpacious := spacious_default
  nodeWidth := Nat.cast_nonneg _
  decisionHalfWidth := Nat.cast_nonneg _
  le_horizontalGap := Nat.cast_le.mpr (by decide)
  le_loopReturnOffset := Nat.cast_le.mpr (by decide)
  le_loopExitOffset := Nat.cast_le.mpr (by decide)

variable {s : Settings Rat} {x y : Rat}

/-! ## Widths of footprints -/

theorem minX_stepBox_le (hs : Roomy s) (kind : StepKind) (label : String) :
    (stepBox s kind label x y).occupied.minX ≤ x := by
  have := hs.nodeWidth
  simp only [stepBox, Box.occupied, Box.center, Bounds.around, half, Scalar.ofNat]
  linarith

theorem minX_diamond (kind : NodeKind) (c : String) :
    (diamond s kind c x y).occupied.minX = x - s.decisionHalfWidth := by
  simp only [diamond, Box.occupied, Box.center, Bounds.around, half, Scalar.ofNat]
  ring

theorem maxX_diamond (kind : NodeKind) (c : String) :
    (diamond s kind c x y).occupied.maxX = x + s.decisionHalfWidth := by
  simp only [diamond, Box.occupied, Box.center, Bounds.around, half, Scalar.ofNat]
  ring

/-! ## Between the branches of an `if` -/

/-- A vertical line has the diamond and the true branch on its left and what the false branch is
shifted to, beyond the free width, on its right. -/
theorem exists_divide (s : Settings Rat) (d : Bounds Rat) (t f : Scene Rat) :
    ∃ m, d.maxX ≤ m ∧ (∀ b ∈ t.boxes, b.occupied.maxX ≤ m) ∧
      (∀ e ∈ t.edges, ∀ q ∈ e.points, q.x ≤ m) ∧
      (∀ b ∈ (f.shifted (falseShift s d t f)).boxes, m + s.laneClearance ≤ b.occupied.minX) ∧
      ∀ e ∈ (f.shifted (falseShift s d t f)).edges, ∀ q ∈ e.points, m + s.laneClearance ≤ q.x := by
  obtain ⟨m, hd, htb, hte, hm⟩ : ∃ m, d.maxX ≤ m ∧ (∀ b ∈ t.boxes, b.occupied.maxX ≤ m) ∧
      (∀ e ∈ t.edges, ∀ q ∈ e.points, q.x ≤ m) ∧
      ∀ fb, f.bounds? = some fb → m + s.laneClearance - fb.minX ≤ falseShift s d t f := by
    cases ht : t.bounds? with
    | none =>
      have hboxes : t.boxes = [] := Scene.boxes_eq_nil_of_bounds?_eq_none ht
      have hedges : t.edges = [] := Scene.edges_eq_nil_of_bounds?_eq_none ht
      refine ⟨d.maxX, le_rfl, by simp [hboxes], by simp [hedges], fun fb hf => ?_⟩
      simp only [falseShift, hf, ht]
      exact le_max_left ..
    | some tb =>
      refine ⟨max tb.maxX d.maxX, le_max_right .., fun b hb => ?_, fun e he q hq => ?_,
        fun fb hf => ?_⟩
      · exact (Scene.bounds?_covers_box ht hb).le_maxX.trans (le_max_left ..)
      · exact (Scene.bounds?_covers_point ht he hq).2.trans (le_max_left ..)
      · simp only [falseShift, hf, ht]
        exact le_max_left ..
  refine ⟨m, hd, htb, hte, ?_, ?_⟩
  · simp only [Scene.shifted, List.forall_mem_map, Box.occupied_shifted]
    intro b hb
    cases hf : f.bounds? with
    | none => simp [Scene.boxes_eq_nil_of_bounds?_eq_none hf] at hb
    | some fb =>
      have := (Scene.bounds?_covers_box hf hb).minX_le
      have := hm fb hf
      show m + s.laneClearance ≤ b.occupied.minX + falseShift s d t f
      linarith
  · simp only [Scene.shifted, List.forall_mem_map, Edge.points_shifted, Point.shifted_x]
    intro e he q hq
    cases hf : f.bounds? with
    | none => simp [Scene.edges_eq_nil_of_bounds?_eq_none hf] at he
    | some fb =>
      have := (Scene.bounds?_covers_point hf he hq).1
      have := hm fb hf
      linarith

/-! ## Layouts and their figures -/

/-- What is known of the layout of a node, drawn as `f` in the column `x`. -/
structure ClearNode (s : Settings Rat) (x y : Rat) (n : Node) (p : Scene Rat) (f : Figure) :
    Prop where
  framed : FramedNode s y n p
  shows : ShowsNode n p f
  column : ∃ b ∈ p.boxes, b.occupied.minX ≤ x
  clear_iff : Clear p.edges p.boxes ↔ ∀ g ∈ f.parts, g.LaneFree

/-- What is known of the layout of a sequence, drawn as `fs` in the column `x`. -/
structure ClearAll (s : Settings Rat) (x y : Rat) (nodes : List Node) (p : Scene Rat)
    (fs : List Figure) : Prop where
  framed : FramedAll s y nodes p
  shows : Shows nodes p fs
  column : nodes ≠ [] → ∃ b ∈ p.boxes, b.occupied.minX ≤ x
  clear_iff : Clear p.edges p.boxes ↔ ∀ g ∈ partsAll fs, g.LaneFree

theorem ClearNode.step (hs : Roomy s) (kind : StepKind) (label : String) :
    ClearNode s x y (.step kind label) (stepScene s kind label x y)
      (.step kind (stepBox s kind label x y) none) where
  framed := (keeps_framed hs.tall).step 0 x y kind label
  shows := keepsDrawn_shows.step x y kind label
  column := ⟨_, List.mem_singleton_self _, minX_stepBox_le hs kind label⟩
  clear_iff := by
    simp only [stepScene, parts, List.forall_mem_singleton, Figure.LaneFree, iff_true]
    exact Clear.nil_left

theorem laneFree_followed {next : Option (Edge Rat)} {f : Figure} :
    (∀ g ∈ (f.followed next).parts, g.LaneFree) ↔ ∀ g ∈ f.parts, g.LaneFree := by
  cases f with
  | step => simp [followed, parts, Figure.LaneFree]
  | branch | loop => rfl

theorem ClearAll.cons (hs : Roomy s) {n : Node} {ns : List Node} {first rest : Scene Rat}
    {f : Figure} {fs : List Figure} (hn : ClearNode s x y n first f)
    (hr : ClearAll s x first.endY ns rest fs) :
    ClearAll s x y (n :: ns) (columnScene s x y n ns first rest)
      (f.followed (sequenceEdges s n ns x y first.endY).head? :: fs) := by
  have hgap := hs.verticalGap
  have hframed := (keeps_framed hs.tall).cons 0 x y n ns first rest hn.framed hr.framed
  have hfirst := hn.framed.framed
  have hmax : ∀ b ∈ first.boxes, b.occupied.maxY ≤ first.endY := by
    intro b hb
    have := hfirst.maxY_le b hb
    linarith
  have hseq : ∀ e ∈ sequenceEdges s n ns x y first.endY, ∀ q ∈ e.points,
      first.endY - s.verticalGap ≤ q.y ∧ q.y ≤ first.endY :=
    points_sequenceEdges hs.tall hn.framed.endY_step
  refine ⟨hframed, keepsDrawn_shows.cons x y n ns first rest f fs hn.shows hr.shows,
    fun _ => ?_, ?_⟩
  · obtain ⟨b, hb, hx⟩ := hn.column
    exact ⟨b, List.mem_append_left _ hb, hx⟩
  · rw [partsAll, List.forall_mem_append, laneFree_followed, ← hn.clear_iff, ← hr.clear_iff]
    simp only [columnScene, Clear.append_left, Clear.append_right]
    have hfr : Clear first.edges rest.boxes :=
      .of_above (fun e he q hq => (hfirst.points e he q hq).2) hr.framed.le_minY
    have hrf : Clear rest.edges first.boxes :=
      .of_below (fun e he q hq => (hr.framed.points e he q hq).1) hmax
    have hsr : Clear (sequenceEdges s n ns x y first.endY) rest.boxes :=
      .of_above (fun e he q hq => (hseq e he q hq).2) hr.framed.le_minY
    have hsf : Clear (sequenceEdges s n ns x y first.endY) first.boxes :=
      .of_below (fun e he q hq => (hseq e he q hq).1) hfirst.maxY_le
    tauto

theorem falseShift_nonneg (d : Bounds Rat) (t f : Scene Rat) : 0 ≤ falseShift s d t f := by
  unfold falseShift
  cases f.bounds? with
  | none => exact Nat.cast_nonneg _
  | some fb => exact le_max_right ..

theorem LaneFree.shifted {dx : Rat} {f : Figure} : (f.shifted dx).LaneFree ↔ f.LaneFree := by
  cases f with
  | step | loop => rfl
  | branch box ta fa t tm f fm =>
    have hnil : shiftedAll dx f = [] ↔ f = [] := by cases f <;> simp [shiftedAll]
    simp only [Figure.shifted, Figure.LaneFree, hnil, boxesAll_shifted, List.forall_mem_map,
      Box.occupied_shifted, Bounds.mem_interior_shifted]
    refine forall₃_congr fun _ b _ => ⟨fun h q hq hx => ?_, fun h q hq hx => ?_⟩
    · refine h ⟨q.x + dx, q.y⟩ ?_ (by rw [hx]; rfl)
      simpa using hq
    · refine h _ hq ?_
      rw [hx]
      exact add_sub_cancel_right ..

/-- The way past the true branch runs through a box only where it goes down. -/
theorem clear_falseMerge_iff {lane c m : Rat} {bs : List (Box Rat)}
    (hc : ∀ b ∈ bs, c ≤ b.occupied.minY) (hm : ∀ b ∈ bs, b.occupied.maxY ≤ m) :
    Clear [.falseMerge lane c x m] bs ↔ ∀ b ∈ bs, ∀ q ∈ b.occupied.interior, q.x ≠ lane := by
  have hsegments : (Edge.falseMerge lane c x m).segments =
      [(⟨lane, c⟩, ⟨lane, m⟩), (⟨lane, m⟩, ⟨x, m⟩)] := rfl
  simp only [Clear, List.forall_mem_singleton, Edge.misses_iff, hsegments, List.forall_mem_cons]
  refine forall₂_congr fun b hb => ⟨fun hclear q hq hx => ?_, fun h => ⟨?_, ?_⟩⟩
  · have hmem := Point.mem_segment_of_column hx ((hc b hb).trans hq.2.2.1.le)
      (hq.2.2.2.le.trans (hm b hb))
    exact Set.disjoint_left.mp hclear.1 hmem hq
  · refine Set.disjoint_left.mpr fun q hq hin => h q hin ?_
    have hcolumn := Point.x_of_mem_segment (m := lane) hq
    exact le_antisymm (hcolumn.2 le_rfl le_rfl) (hcolumn.1 le_rfl le_rfl)
  · have hbelow : b.occupied.Beside ⟨lane, m⟩ ⟨x, m⟩ := .below (hm b hb) (hm b hb)
    exact hbelow.disjoint

theorem ClearAll.shifted_column {nodes : List Node} {p : Scene Rat} {fs : List Figure}
    (h : ClearAll s x y nodes p fs) (dx : Rat) :
    nodes ≠ [] → ∃ b ∈ (p.shifted dx).boxes, b.occupied.minX ≤ x + dx := by
  intro hn
  obtain ⟨b, hb, hx⟩ := h.column hn
  refine ⟨b.shifted dx, List.mem_map_of_mem hb, ?_⟩
  rw [Box.occupied_shifted]
  exact add_le_add_left hx dx

/-- Connectors below a diamond. -/
theorem clear_diamond_of_below {es : List (Edge Rat)} (kind : NodeKind) (c : String)
    (h : ∀ e ∈ es, ∀ q ∈ e.points, armY s y ≤ q.y) : Clear es [diamond s kind c x y] := by
  refine .of_below h ?_
  simp [maxY_diamond]

section Branch

variable {c : String} {t f : List Node} {whenTrue whenFalse : Scene Rat} {ts fs : List Figure}
  {shift : Rat}

/-- Nothing that belongs to an `if` runs through its diamond. -/
theorem clear_branch_diamond (hs : Roomy s) (ht : FramedAll s (innerY s y) t whenTrue)
    (hf : FramedAll s (innerY s y) f whenFalse) (hshift : 0 ≤ shift) :
    Clear (.trueArm x (armY s y) (innerY s y) ::
      .falseArm ⟨x + s.decisionHalfWidth, vertexY s y⟩ (x + s.horizontalGap + shift)
        (innerY s y) ::
      (whenTrue.edges ++ .down .merge x (connectY s y t whenTrue)
        (greatest whenTrue.endY whenFalse.endY + s.verticalGap) ::
      (whenFalse.edges ++ [.falseMerge (x + s.horizontalGap + shift) (connectY s y f whenFalse) x
        (greatest whenTrue.endY whenFalse.endY + s.verticalGap)])))
      [diamond s .branch c x y] := by
  obtain ⟨-, harm⟩ := le_innerY (y := y) hs.tall
  obtain ⟨htc, htc', -⟩ := ht.connect hs.tall
  obtain ⟨hfc, -, -⟩ := hf.connect hs.tall
  have hgap := hs.verticalGap
  have hwidth := hs.le_horizontalGap
  have htm : whenTrue.endY ≤ greatest whenTrue.endY whenFalse.endY := le_max_left ..
  rw [Clear.cons_left]
  refine ⟨clear_diamond_of_below _ _ ?_, ?_⟩
  · rw [List.forall_mem_singleton]
    simp only [Edge.points_trueArm, List.forall_mem_cons]
    exact ⟨le_rfl, harm, by simp⟩
  rw [Clear.cons_left]
  refine ⟨.of_right (m := x + s.decisionHalfWidth) ?_ (by simp [maxX_diamond]),
    clear_diamond_of_below _ _ ?_⟩
  · rw [List.forall_mem_singleton]
    simp only [Edge.points_falseArm, List.forall_mem_cons]
    exact ⟨le_rfl, by linarith, by linarith, by simp⟩
  · rw [List.forall_mem_append, List.forall_mem_cons, List.forall_mem_append,
      List.forall_mem_singleton]
    refine ⟨fun e he q hq => harm.trans (ht.points e he q hq).1, ?_,
      fun e he q hq => harm.trans (hf.points e he q hq).1, ?_⟩
    · simp only [Edge.points_down, List.forall_mem_cons]
      exact ⟨by linarith, by linarith, by simp⟩
    · simp only [Edge.points_falseMerge, List.forall_mem_cons]
      exact ⟨by linarith, by linarith, by linarith, by simp⟩

/-- Of the connectors of an `if`, those of a branch may run through boxes of the same branch, and
the way past the true branch through boxes of the true branch. -/
theorem clear_branches_iff (hs : Roomy s) {m : Rat} (hx : x ≤ m)
    (ht : FramedAll s (innerY s y) t whenTrue) (hf : FramedAll s (innerY s y) f whenFalse)
    (htb : ∀ b ∈ whenTrue.boxes, b.occupied.maxX ≤ m)
    (hte : ∀ e ∈ whenTrue.edges, ∀ q ∈ e.points, q.x ≤ m)
    (hfb : ∀ b ∈ whenFalse.boxes, m ≤ b.occupied.minX)
    (hfe : ∀ e ∈ whenFalse.edges, ∀ q ∈ e.points, m ≤ q.x) (lane : Rat) :
    Clear (.trueArm x (armY s y) (innerY s y) ::
      .falseArm ⟨x + s.decisionHalfWidth, vertexY s y⟩ lane (innerY s y) ::
      (whenTrue.edges ++ .down .merge x (connectY s y t whenTrue)
        (greatest whenTrue.endY whenFalse.endY + s.verticalGap) ::
      (whenFalse.edges ++ [.falseMerge lane (connectY s y f whenFalse) x
        (greatest whenTrue.endY whenFalse.endY + s.verticalGap)])))
      (whenTrue.boxes ++ whenFalse.boxes) ↔
    Clear whenTrue.edges whenTrue.boxes ∧ Clear whenFalse.edges whenFalse.boxes ∧
      Clear [.falseMerge lane (connectY s y f whenFalse) x
        (greatest whenTrue.endY whenFalse.endY + s.verticalGap)] whenTrue.boxes := by
  obtain ⟨-, harm⟩ := le_innerY (y := y) hs.tall
  obtain ⟨-, hvertex⟩ := vertexY_le_armY (y := y) hs.tall
  obtain ⟨htc, htc', htmax⟩ := ht.connect hs.tall
  obtain ⟨hfc, hfc', hfmax⟩ := hf.connect hs.tall
  have hgap := hs.verticalGap
  have htm : whenTrue.endY ≤ greatest whenTrue.endY whenFalse.endY := le_max_left ..
  have hfm : whenFalse.endY ≤ greatest whenTrue.endY whenFalse.endY := le_max_right ..
  have hmin := List.forall_mem_append.mpr ⟨ht.le_minY, hf.le_minY⟩
  have hta : Clear [.trueArm x (armY s y) (innerY s y)] (whenTrue.boxes ++ whenFalse.boxes) := by
    refine .of_above ?_ hmin
    rw [List.forall_mem_singleton]
    simp only [Edge.points_trueArm, List.forall_mem_cons]
    exact ⟨harm, le_rfl, by simp⟩
  have hfa : Clear [.falseArm ⟨x + s.decisionHalfWidth, vertexY s y⟩ lane (innerY s y)]
      (whenTrue.boxes ++ whenFalse.boxes) := by
    refine .of_above ?_ hmin
    rw [List.forall_mem_singleton]
    simp only [Edge.points_falseArm, List.forall_mem_cons]
    exact ⟨by linarith, by linarith, le_rfl, by simp⟩
  have hmergeTrue : Clear [.down .merge x (connectY s y t whenTrue)
      (greatest whenTrue.endY whenFalse.endY + s.verticalGap)] whenTrue.boxes := by
    refine .of_below ?_ htmax
    rw [List.forall_mem_singleton]
    simp only [Edge.points_down, List.forall_mem_cons]
    exact ⟨le_rfl, by linarith, by simp⟩
  have hmergeFalse : Clear [.down .merge x (connectY s y t whenTrue)
      (greatest whenTrue.endY whenFalse.endY + s.verticalGap)] whenFalse.boxes := by
    refine .of_left ?_ hfb
    rw [List.forall_mem_singleton]
    simp only [Edge.points_down, List.forall_mem_cons]
    exact ⟨hx, hx, by simp⟩
  have hway : Clear [.falseMerge lane (connectY s y f whenFalse) x
      (greatest whenTrue.endY whenFalse.endY + s.verticalGap)] whenFalse.boxes := by
    refine .of_below ?_ hfmax
    rw [List.forall_mem_singleton]
    simp only [Edge.points_falseMerge, List.forall_mem_cons]
    exact ⟨le_rfl, by linarith, by linarith, by simp⟩
  have htf : Clear whenTrue.edges whenFalse.boxes := .of_left hte hfb
  have hft : Clear whenFalse.edges whenTrue.boxes := .of_right hfe htb
  rw [Clear.cons_left, @Clear.cons_left _ (whenTrue.edges ++ _), Clear.append_left,
    @Clear.cons_left _ (whenFalse.edges ++ _), Clear.append_left]
  simp only [hta, hfa, Clear.append_right, hmergeTrue, hmergeFalse, hway, htf, hft, true_and,
    and_true]

/-- With a false branch, the way out of it keeps right of the true branch. -/
theorem clear_falseMerge_of_right {lane a b m : Rat} (hlane : m ≤ lane)
    (hb : ∀ box ∈ whenTrue.boxes, box.occupied.maxX ≤ m ∧ box.occupied.maxY ≤ b) :
    Clear [.falseMerge lane a x b] whenTrue.boxes := by
  have hsegments : (Edge.falseMerge lane a x b).segments =
      [(⟨lane, a⟩, ⟨lane, b⟩), (⟨lane, b⟩, ⟨x, b⟩)] := rfl
  refine .of_beside ?_
  rw [hsegments, List.forall_mem_cons, List.forall_mem_singleton]
  refine ⟨fun box hbox => ?_, fun box hbox => ?_⟩
  · have hright := (hb box hbox).1.trans hlane
    exact .right hright hright
  · exact .below (hb box hbox).2 (hb box hbox).2

/-- The way out of the false column runs through a box of the true branch only where there is no
false branch. -/
theorem clear_way_iff (hs : Roomy s) (ht : FramedAll s (innerY s y) t whenTrue)
    (hf : ClearAll s (x + s.horizontalGap) (innerY s y) f whenFalse fs) {m : Rat}
    (htb : ∀ b ∈ whenTrue.boxes, b.occupied.maxX ≤ m)
    (hfb : ∀ b ∈ (whenFalse.shifted shift).boxes, m ≤ b.occupied.minX) :
    Clear [.falseMerge (x + s.horizontalGap + shift) (connectY s y f whenFalse) x
      (greatest whenTrue.endY whenFalse.endY + s.verticalGap)] whenTrue.boxes ↔
    (f = [] → ∀ b ∈ whenTrue.boxes, ∀ q ∈ b.occupied.interior,
      q.x ≠ x + s.horizontalGap + shift) := by
  have hgap := hs.verticalGap
  obtain ⟨-, hconnect, hmax⟩ := ht.connect hs.tall
  have htm : whenTrue.endY ≤ greatest whenTrue.endY whenFalse.endY := le_max_left ..
  have hbelow : ∀ b ∈ whenTrue.boxes,
      b.occupied.maxY ≤ greatest whenTrue.endY whenFalse.endY + s.verticalGap := by
    intro b hb
    have := hmax b hb
    linarith
  by_cases hn : f = []
  · have hinner : connectY s y f whenFalse = innerY s y := by simp [connectY, hn]
    rw [hinner, clear_falseMerge_iff ht.le_minY hbelow]
    exact ⟨fun h _ => h, fun h => h hn⟩
  · obtain ⟨b, hb, hbx⟩ := hf.shifted_column shift hn
    have hlane := (hfb b hb).trans hbx
    exact iff_of_true (clear_falseMerge_of_right hlane fun b hb => ⟨htb b hb, hbelow b hb⟩)
      fun h => absurd h hn

/-- The lanes inside an `if` are its own and those inside its branches. -/
theorem forall_laneFree_branch_iff (ht : Shows t whenTrue ts) (hf : Shows f whenFalse fs) :
    (∀ g ∈ (branchFigure s c x y t f whenTrue whenFalse ts fs).parts, g.LaneFree) ↔
      (f = [] → ∀ b ∈ whenTrue.boxes, ∀ q ∈ b.occupied.interior, q.x ≠ x + s.horizontalGap +
        falseShift s (diamond s .branch c x y).occupied whenTrue whenFalse) ∧
      (∀ g ∈ partsAll ts, g.LaneFree) ∧ ∀ g ∈ partsAll fs, g.LaneFree := by
  have hnil (dx : Rat) : shiftedAll dx fs = [] ↔ f = [] := by
    rw [shiftedAll_eq_nil, ← nodeAll_eq_nil_iff, hf.nodes]
  have hshifted (dx : Rat) : (∀ g ∈ partsAll (shiftedAll dx fs), g.LaneFree) ↔
      ∀ g ∈ partsAll fs, g.LaneFree := by
    simp only [partsAll_shifted, List.forall_mem_map, LaneFree.shifted]
  have hown : (branchFigure s c x y t f whenTrue whenFalse ts fs).LaneFree ↔
      (f = [] → ∀ b ∈ whenTrue.boxes, ∀ q ∈ b.occupied.interior, q.x ≠ x + s.horizontalGap +
        falseShift s (diamond s .branch c x y).occupied whenTrue whenFalse) := by
    simp only [branchFigure, Figure.LaneFree, hnil, ht.boxes]
    rfl
  rw [← hown, ← hshifted (falseShift s (diamond s .branch c x y).occupied whenTrue whenFalse),
    ← List.forall_mem_append]
  exact List.forall_mem_cons

end Branch

theorem ClearNode.branch (hs : Roomy s) {c : String} {t f : List Node}
    {whenTrue whenFalse : Scene Rat} {ts fs : List Figure}
    (ht : ClearAll s x (innerY s y) t whenTrue ts)
    (hf : ClearAll s (x + s.horizontalGap) (innerY s y) f whenFalse fs) :
    ClearNode s x y (.branch c t f) (branchScene s c x y t f whenTrue whenFalse)
      (branchFigure s c x y t f whenTrue whenFalse ts fs) := by
  have hwidth := hs.decisionHalfWidth
  let d := diamond s .branch c x y
  let shift := falseShift s d.occupied whenTrue whenFalse
  have hff := hf.framed.shifted shift
  have hminX : d.occupied.minX = x - s.decisionHalfWidth := minX_diamond ..
  have hmaxX : d.occupied.maxX = x + s.decisionHalfWidth := maxX_diamond ..
  refine ⟨(keeps_framed hs.tall).branch 0 x y c t f whenTrue whenFalse ht.framed hf.framed,
    keepsDrawn_shows.branch x y c t f whenTrue whenFalse ts fs ht.shows hf.shows,
    ⟨d, List.mem_cons_self, by linarith⟩, ?_⟩
  obtain ⟨m, hdm, htb, hte, hfb, hfe⟩ := exists_divide s d.occupied whenTrue whenFalse
  have hx : x ≤ m := by linarith
  have hm : m ≤ m + s.laneClearance := le_add_of_nonneg_right hs.laneClearance
  replace hfb := fun b hb => hm.trans (hfb b hb)
  replace hfe := fun e he q hq => hm.trans (hfe e he q hq)
  have hshift : 0 ≤ shift := falseShift_nonneg ..
  have hdiamond := clear_branch_diamond (x := x) (c := c) hs ht.framed hff hshift
  have hbranches := clear_branches_iff hs hx ht.framed hff htb hte hfb hfe
    (x + s.horizontalGap + shift)
  have hway := clear_way_iff hs ht.framed hf htb hfb
  have hshifted : Clear (whenFalse.shifted shift).edges (whenFalse.shifted shift).boxes ↔
      Clear whenFalse.edges whenFalse.boxes := Clear.shifted shift
  have hall := (Clear.cons_right.trans (and_iff_right hdiamond)).trans hbranches
  rw [forall_laneFree_branch_iff ht.shows hf.shows, ← hway, ← ht.clear_iff, ← hf.clear_iff,
    ← hshifted]
  exact hall.trans (and_assoc.symm.trans and_comm)

/-- The lanes of a loop keep the free width from everything in its body. -/
theorem loopLanes_clear (s : Settings Rat) (x : Rat) (body : Scene Rat) :
    (∀ b ∈ body.boxes, (loopLanes s x body).1 + s.laneClearance ≤ b.occupied.minX ∧
      b.occupied.maxX + s.laneClearance ≤ (loopLanes s x body).2) ∧
    ∀ e ∈ body.edges, ∀ q ∈ e.points, (loopLanes s x body).1 + s.laneClearance ≤ q.x ∧
      q.x + s.laneClearance ≤ (loopLanes s x body).2 := by
  cases hb : body.bounds? with
  | none =>
    rw [Scene.boxes_eq_nil_of_bounds?_eq_none hb, Scene.edges_eq_nil_of_bounds?_eq_none hb]
    exact ⟨List.forall_mem_nil _, List.forall_mem_nil _⟩
  | some bounds =>
    have hback : (loopLanes s x body).1 + s.laneClearance ≤ bounds.minX := by
      simp only [loopLanes, hb]
      exact le_sub_iff_add_le.mp (min_le_right ..)
    have hout : bounds.maxX + s.laneClearance ≤ (loopLanes s x body).2 := by
      simp only [loopLanes, hb]
      exact le_max_right ..
    refine ⟨fun b hbox => ?_, fun e he q hq => ?_⟩
    · have hcovers := Scene.bounds?_covers_box hb hbox
      exact ⟨hback.trans hcovers.minX_le, le_trans (add_le_add_left hcovers.le_maxX _) hout⟩
    · obtain ⟨hmin, hmax⟩ := Scene.bounds?_covers_point hb he hq
      exact ⟨hback.trans hmin, le_trans (add_le_add_left hmax _) hout⟩

/-- The lanes of a loop run left and right of its diamond and of all its body. -/
theorem loopLanes_facts (hs : Roomy s) (body : Scene Rat) :
    (loopLanes s x body).1 ≤ x - s.decisionHalfWidth ∧
    x + s.decisionHalfWidth ≤ (loopLanes s x body).2 ∧
    ∀ b ∈ body.boxes, (loopLanes s x body).1 ≤ b.occupied.minX ∧
      b.occupied.maxX ≤ (loopLanes s x body).2 := by
  have hclear := hs.laneClearance
  have hback : (loopLanes s x body).1 ≤ x - s.loopReturnOffset := by
    unfold loopLanes
    cases body.bounds? with
    | none => exact le_rfl
    | some bounds => exact min_le_left ..
  have hout : x + s.loopExitOffset ≤ (loopLanes s x body).2 := by
    unfold loopLanes
    cases body.bounds? with
    | none => exact le_rfl
    | some bounds => exact le_max_left ..
  refine ⟨hback.trans (sub_le_sub_left hs.le_loopReturnOffset x),
    le_trans (by linarith [hs.le_loopExitOffset]) hout, fun b hb => ?_⟩
  obtain ⟨hleft, hright⟩ := (loopLanes_clear s x body).1 b hb
  constructor <;> linarith

section Loop

variable {c : String} {nodes : List Node} {body : Scene Rat}

/-- The way back of a loop goes round its body and its diamond. -/
theorem clear_loopBack (hs : Roomy s) (hb : FramedAll s (innerY s y) nodes body) :
    Clear [.loopBack ⟨x, connectY s y nodes body⟩ (loopLanes s x body).1
      ⟨x - s.decisionHalfWidth, vertexY s y⟩] (diamond s .loop c x y :: body.boxes) := by
  obtain ⟨-, harm⟩ := le_innerY (y := y) hs.tall
  obtain ⟨-, hvertex⟩ := vertexY_le_armY (y := y) hs.tall
  obtain ⟨hc, -, hmax⟩ := hb.connect hs.tall
  obtain ⟨hlane, -, hlanes⟩ := loopLanes_facts (x := x) hs body
  have hsegments (p q : Point Rat) (lane : Rat) : (Edge.loopBack p lane q).segments =
      [(p, ⟨lane, p.y⟩), (⟨lane, p.y⟩, ⟨lane, q.y⟩), (⟨lane, q.y⟩, q)] := rfl
  refine .of_beside ?_
  rw [hsegments]
  simp only [List.forall_mem_cons, List.not_mem_nil, false_imp_iff, implies_true, and_true]
  refine ⟨⟨?_, fun b hb' => ?_⟩, ⟨?_, fun b hb' => ?_⟩, ?_, fun b hb' => ?_⟩
  · refine .below ?_ ?_ <;> (rw [maxY_diamond]; exact harm.trans hc)
  · exact .below (hmax b hb') (hmax b hb')
  · refine .left ?_ ?_ <;> rwa [minX_diamond]
  · exact .left (hlanes b hb').1 (hlanes b hb').1
  · refine .left ?_ ?_ <;> rw [minX_diamond]
    exact hlane
  · have := hb.le_minY b hb'
    refine .above ?_ ?_ <;> (show vertexY s y ≤ b.occupied.minY; linarith)

/-- The way out of a loop goes round its body. -/
theorem clear_loopExit (hs : Roomy s) (hb : FramedAll s (innerY s y) nodes body) :
    Clear [.loopExit ⟨x + s.decisionHalfWidth, vertexY s y⟩ (loopLanes s x body).2 x
      (body.endY + s.verticalGap)] (diamond s .loop c x y :: body.boxes) := by
  have hgap := hs.verticalGap
  obtain ⟨-, harm⟩ := le_innerY (y := y) hs.tall
  obtain ⟨-, hvertex⟩ := vertexY_le_armY (y := y) hs.tall
  obtain ⟨hc, hc', hmax⟩ := hb.connect hs.tall
  obtain ⟨-, hlane, hlanes⟩ := loopLanes_facts (x := x) hs body
  have hsegments (p : Point Rat) (lane b : Rat) : (Edge.loopExit p lane x b).segments =
      [(p, ⟨lane, p.y⟩), (⟨lane, p.y⟩, ⟨lane, b⟩), (⟨lane, b⟩, ⟨x, b⟩)] := rfl
  refine .of_beside ?_
  rw [hsegments]
  simp only [List.forall_mem_cons, List.not_mem_nil, false_imp_iff, implies_true, and_true]
  have hout : armY s y ≤ body.endY + s.verticalGap := by linarith
  refine ⟨⟨?_, fun b hb' => ?_⟩, ⟨?_, fun b hb' => ?_⟩, ?_, fun b hb' => ?_⟩
  · refine .right ?_ ?_ <;> rw [maxX_diamond]
    exact hlane
  · have := hb.le_minY b hb'
    refine .above ?_ ?_ <;> (show vertexY s y ≤ b.occupied.minY; linarith)
  · refine .right ?_ ?_ <;> rwa [maxX_diamond]
  · exact .right (hlanes b hb').2 (hlanes b hb').2
  · refine .below ?_ ?_ <;> rwa [maxY_diamond]
  · have := hmax b hb'
    refine .below ?_ ?_ <;> (show b.occupied.maxY ≤ body.endY + s.verticalGap; linarith)

end Loop

theorem ClearNode.loop (hs : Roomy s) {c : String} {nodes : List Node} {body : Scene Rat}
    {fs : List Figure} (hb : ClearAll s x (innerY s y) nodes body fs) :
    ClearNode s x y (.loop c nodes) (loopScene s c x y nodes body)
      (loopFigure s c x y nodes body fs) := by
  have hwidth := hs.decisionHalfWidth
  obtain ⟨-, harm⟩ := le_innerY (y := y) hs.tall
  refine ⟨(keeps_framed hs.tall).loop 0 x y c nodes body hb.framed,
    keepsDrawn_shows.loop x y c nodes body fs hb.shows, ⟨_, List.mem_cons_self, ?_⟩, ?_⟩
  · rw [minX_diamond]
    linarith
  have harms : Clear [.trueArm x (armY s y) (innerY s y)]
      (diamond s .loop c x y :: body.boxes) := by
    rw [Clear.cons_right]
    refine ⟨clear_diamond_of_below _ _ ?_, .of_above ?_ hb.framed.le_minY⟩ <;>
      rw [List.forall_mem_singleton] <;> simp only [Edge.points_trueArm, List.forall_mem_cons]
    · exact ⟨le_rfl, harm, by simp⟩
    · exact ⟨harm, le_rfl, by simp⟩
  have hdiamond : Clear body.edges [diamond s .loop c x y] :=
    clear_diamond_of_below _ _ fun e he q hq => harm.trans (hb.framed.points e he q hq).1
  have hparts : (∀ g ∈ (loopFigure s c x y nodes body fs).parts, g.LaneFree) ↔
      ∀ g ∈ partsAll fs, g.LaneFree := List.forall_mem_cons.trans (and_iff_right trivial)
  rw [hparts, ← hb.clear_iff]
  have hways : Clear [.loopBack ⟨x, connectY s y nodes body⟩ (loopLanes s x body).1
      ⟨x - s.decisionHalfWidth, vertexY s y⟩, .loopExit ⟨x + s.decisionHalfWidth, vertexY s y⟩
      (loopLanes s x body).2 x (body.endY + s.verticalGap)]
      (diamond s .loop c x y :: body.boxes) :=
    Clear.cons_left.mpr ⟨clear_loopBack hs hb.framed, clear_loopExit hs hb.framed⟩
  refine Clear.cons_left.trans ((and_iff_right harms).trans ?_)
  refine Clear.append_left.trans ((and_iff_left hways).trans ?_)
  exact Clear.cons_right.trans (and_iff_right hdiamond)

/-! ## Whole layouts -/

theorem keepsDrawn_clear (hs : Roomy s) : KeepsDrawn s (ClearNode s) (ClearAll s) where
  step _ _ := .step hs
  branch _ _ _ _ _ _ _ _ _ := .branch hs
  loop _ _ _ _ _ _ := .loop hs
  nil x y := by
    refine ⟨(keeps_framed hs.tall).nil 0 x y, (keepsDrawn_shows (s := s)).nil x y,
      fun h => absurd rfl h, ?_⟩
    simp [partsAll, Scene.empty, Clear.nil_left]
  cons _ _ _ _ _ _ _ _ := .cons hs

/-- **Connectors and shapes.** A layout reads as figures of its nodes, and none of its connectors
runs through a shape if and only if no `if` without a false branch has a shape of its true branch
across its way past that branch. -/
theorem sequence_clear_iff (hs : Roomy s) {nodes : List Node} {depth : Nat} {p : Scene Rat}
    (h : sequence s nodes x y depth = .ok p) :
    ∃ fs, Shows nodes p fs ∧
      ((∀ e ∈ p.edges, ∀ b ∈ p.boxes, Disjoint e.line b.occupied.interior) ↔
        ∀ f ∈ partsAll fs, f.LaneFree) :=
  have hclear := (keepsDrawn_clear hs).of_sequence h
  ⟨_, hclear.shows, hclear.clear_iff⟩

/-- The way past a true branch that reaches into the next column, and back into its own. -/
theorem nested_else_clear_iff :
    Roomy .default ∧ ∃ p, sequence (.default : Settings Rat)
      [.branch "a" [.branch "b" [.stop] [.stop]] [], .loop "c" [.branch "d" [.stop] []]]
        400 50 0 = .ok p ∧ p.edges.length = 15 ∧
      ∃ fs, Shows [.branch "a" [.branch "b" [.stop] [.stop]] [],
        .loop "c" [.branch "d" [.stop] []]] p fs ∧
        ((∀ e ∈ p.edges, ∀ b ∈ p.boxes, Disjoint e.line b.occupied.interior) ↔
          ∀ f ∈ partsAll fs, f.LaneFree) := by
  have h : sequence (.default : Settings Rat)
      [.branch "a" [.branch "b" [.stop] [.stop]] [], .loop "c" [.branch "d" [.stop] []]]
        400 50 0 = .ok _ := rfl
  exact ⟨roomy_default, _, h, rfl, sequence_clear_iff roomy_default h⟩

/-- An `if` without a false branch around an `if` with one: the way past the true branch runs
through what the inner `if` does when its condition fails. -/
theorem nested_else_crossed :
    ∃ p, sequence (.default : Settings Rat)
        [.branch "a" [.branch "b" [.step .process "p"] [.step .process "q"]] []] 400 50 0 = .ok p ∧
      ∃ e ∈ p.edges, ∃ b ∈ p.boxes, ¬Disjoint e.line b.occupied.interior := by
  obtain ⟨p, h, ⟨e, he, hpoints⟩, b, hb, hoccupied⟩ : ∃ p, sequence (.default : Settings Rat)
        [.branch "a" [.branch "b" [.step .process "p"] [.step .process "q"]] []] 400 50 0 = .ok p ∧
      (∃ e ∈ p.edges, e.points = [⟨740, 396⟩, ⟨740, 1162⟩, ⟨400, 1162⟩]) ∧
      ∃ b ∈ p.boxes, b.occupied = ⟨660, 742, 820, 802⟩ :=
    ⟨_, rfl, by decide +kernel, by decide +kernel⟩
  have hpart : (⟨740, 396⟩, ⟨740, 1162⟩) ∈ e.segments := by
    simp [Edge.segments, hpoints]
  refine ⟨p, h, e, he, b, hb, Set.not_disjoint_iff.mpr ⟨⟨740, 772⟩, ⟨_, hpart, ?_⟩, ?_⟩⟩
  · exact Point.mem_segment_of_column rfl (by norm_num) (by norm_num)
  · rw [hoccupied]
    show (660 : Rat) < 740 ∧ (740 : Rat) < 820 ∧ (742 : Rat) < 772 ∧ (772 : Rat) < 802
    norm_num

end Layout

end Flowchart
