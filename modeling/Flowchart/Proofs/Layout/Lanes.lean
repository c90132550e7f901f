import Flowchart.Proofs.Layout.Clear

/-!
# Lanes of loops

`sequence_lanes_apart`: the ways back and out of a loop run in two upright lanes that keep their
clearance from all that the body of the loop holds, and the lanes of two loops have no common point.

* `Edge.lane`: the part of a connector between its two waypoints.
* `Figure.KeepsClear`, `Figure.LanesApart`: what is asked of a loop and of two loops.
* `Laned`: what a part of a layout knows of its loops. The lanes of two of them are told apart by a
  height where one follows the other, and by the clearance where one is in the body of the other or
  an `if` has them in its two branches.
-/

namespace Flowchart

open Scalar

namespace Edge

/-- The part of a connector between its two waypoints. -/
def lane (e : Edge Rat) : Set (Point Rat) :=
  {r | ∃ p q, e.waypoints = [p, q] ∧ r ∈ p.segment q}

/-- The lane of the connector runs up or down at `x`. -/
def RunsAt (e : Edge Rat) (x : Rat) : Prop := ∃ a b, e.waypoints = [⟨x, a⟩, ⟨x, b⟩]

variable {e : Edge Rat} {r : Point Rat} {m dx : Rat}

theorem RunsAt.x_eq (h : e.RunsAt m) (hr : r ∈ e.lane) : r.x = m := by
  obtain ⟨a, b, hw⟩ := h
  obtain ⟨p, q, hpq, t, -, -, hx, -⟩ := hr
  obtain ⟨rfl, rfl⟩ : ⟨m, a⟩ = p ∧ ⟨m, b⟩ = q := by simpa using hw.symm.trans hpq
  simpa using hx

theorem RunsAt.shifted (h : e.RunsAt m) (dx : Rat) : (e.shifted dx).RunsAt (m + dx) := by
  obtain ⟨a, b, hw⟩ := h
  exact ⟨a, b, by simp [Edge.shifted, hw, Point.shifted_eq]⟩

/-- A lane lies between two corners of its connector. -/
theorem exists_mem_segment_of_mem_lane (hr : r ∈ e.lane) :
    ∃ p ∈ e.points, ∃ q ∈ e.points, r ∈ p.segment q := by
  obtain ⟨p, q, hw, hr⟩ := hr
  exact ⟨p, by simp [points, hw], q, by simp [points, hw], hr⟩

theorem x_of_mem_lane (hr : r ∈ e.lane) : ((∀ q ∈ e.points, m ≤ q.x) → m ≤ r.x) ∧
    ((∀ q ∈ e.points, q.x ≤ m) → r.x ≤ m) := by
  obtain ⟨p, hp, q, hq, hr⟩ := exists_mem_segment_of_mem_lane hr
  exact ⟨fun h => (Point.x_of_mem_segment hr).1 (h p hp) (h q hq),
    fun h => (Point.x_of_mem_segment hr).2 (h p hp) (h q hq)⟩

theorem y_of_mem_lane (hr : r ∈ e.lane) : ((∀ q ∈ e.points, m < q.y) → m < r.y) ∧
    ((∀ q ∈ e.points, q.y ≤ m) → r.y ≤ m) := by
  obtain ⟨p, hp, q, hq, hr⟩ := exists_mem_segment_of_mem_lane hr
  refine ⟨fun h => ?_, fun h => (Point.y_of_mem_segment hr).2 (h p hp) (h q hq)⟩
  exact (lt_min (h p hp) (h q hq)).trans_le
    ((Point.y_of_mem_segment hr).1 (min_le_left ..) (min_le_right ..))

theorem mem_lane_of_shifted (hr : r ∈ (e.shifted dx).lane) : ⟨r.x - dx, r.y⟩ ∈ e.lane := by
  obtain ⟨p, q, hw, hr⟩ := hr
  obtain ⟨p, ps, hps, rfl, hq⟩ := List.map_eq_cons_iff.mp hw
  obtain ⟨q, rfl, rfl⟩ := List.map_eq_singleton_iff.mp hq
  exact ⟨p, q, hps, Point.mem_segment_shifted.mp hr⟩

end Edge

namespace Figure

/-- The way back and the way out of a loop. -/
def ways : Figure → List (Edge Rat)
  | loop _ _ _ back out => [back, out]
  | step .. | branch .. => []

/-- The lanes of a loop run left and right of all boxes and connectors of its body, at a distance
of at least `clearance`. -/
def KeepsClear (clearance : Rat) : Figure → Prop
  | loop _ _ body back out => ∃ left right, back.RunsAt left ∧ out.RunsAt right ∧
      (∀ b ∈ boxesAll body, left + clearance ≤ b.occupied.minX ∧
        b.occupied.maxX + clearance ≤ right) ∧
      ∀ e ∈ edgesAll body, ∀ q ∈ e.points, left + clearance ≤ q.x ∧ q.x + clearance ≤ right
  | step .. | branch .. => True

/-- No lane of the one figure meets a lane of the other. -/
def LanesApart (f g : Figure) : Prop := ∀ e ∈ f.ways, ∀ e' ∈ g.ways, Disjoint e.lane e'.lane

variable {clearance m m' dx : Rat} {f g : Figure}

theorem LanesApart.of_left (hm : m < m') (hf : ∀ e ∈ f.ways, ∀ q ∈ e.points, q.x ≤ m)
    (hg : ∀ e ∈ g.ways, ∀ q ∈ e.points, m' ≤ q.x) : f.LanesApart g := by
  intro e he e' he'
  refine Set.disjoint_left.mpr fun r hr hr' => ?_
  have hleft := (Edge.x_of_mem_lane hr).2 (hf e he)
  have hright := (Edge.x_of_mem_lane hr').1 (hg e' he')
  linarith

theorem LanesApart.of_above (hf : ∀ e ∈ f.ways, ∀ q ∈ e.points, q.y ≤ m)
    (hg : ∀ e ∈ g.ways, ∀ q ∈ e.points, m < q.y) : f.LanesApart g := by
  intro e he e' he'
  refine Set.disjoint_left.mpr fun r hr hr' => ?_
  have habove := (Edge.y_of_mem_lane hr).2 (hf e he)
  have hbelow := (Edge.y_of_mem_lane hr').1 (hg e' he')
  linarith

/-- The lanes of a loop are apart from those inside its body. -/
theorem KeepsClear.lanesApart (hclear : 0 < clearance) {box : Box Rat} {arm back out : Edge Rat}
    {body : List Figure} (h : (loop box arm body back out).KeepsClear clearance)
    (hg : g.ways ⊆ edgesAll body) : (loop box arm body back out).LanesApart g := by
  obtain ⟨left, right, hback, hout, -, hedges⟩ := h
  have hinner : ∀ e ∈ g.ways, ∀ r ∈ e.lane, left + clearance ≤ r.x ∧ r.x ≤ right - clearance :=
    fun e he r hr =>
      ⟨(Edge.x_of_mem_lane hr).1 fun q hq => (hedges e (hg he) q hq).1,
        (Edge.x_of_mem_lane hr).2 fun q hq => le_sub_iff_add_le.mpr (hedges e (hg he) q hq).2⟩
  intro e he e' he'
  refine Set.disjoint_left.mpr fun r hr hr' => ?_
  obtain ⟨hleft, hright⟩ := hinner e' he' r hr'
  simp only [ways, List.mem_cons, List.not_mem_nil, or_false] at he
  obtain rfl | rfl := he
  · rw [hback.x_eq hr] at hleft
    linarith
  · rw [hout.x_eq hr] at hright
    linarith

/-! ## Shifts -/

theorem ways_shifted (dx : Rat) (f : Figure) : (f.shifted dx).ways = f.ways.map (.shifted dx) := by
  cases f <;> rfl

theorem LanesApart.shifted (h : f.LanesApart g) (dx : Rat) :
    (f.shifted dx).LanesApart (g.shifted dx) := by
  simp only [LanesApart, ways_shifted, List.forall_mem_map]
  intro e he e' he'
  refine Set.disjoint_left.mpr fun r hr hr' => ?_
  exact Set.disjoint_left.mp (h e he e' he') (Edge.mem_lane_of_shifted hr)
    (Edge.mem_lane_of_shifted hr')

theorem KeepsClear.shifted (h : f.KeepsClear clearance) (dx : Rat) :
    (f.shifted dx).KeepsClear clearance := by
  cases f with
  | step | branch => trivial
  | loop =>
    obtain ⟨left, right, hback, hout, hboxes, hedges⟩ := h
    refine ⟨left + dx, right + dx, hback.shifted dx, hout.shifted dx, ?_, ?_⟩
    · simp only [boxesAll_shifted, List.forall_mem_map, Box.occupied_shifted, Bounds.shifted]
      intro b hb
      obtain ⟨hleft, hright⟩ := hboxes b hb
      constructor <;> linarith
    · simp only [edgesAll_shifted, List.forall_mem_map, Edge.points_shifted, Point.shifted_x]
      intro e he q hq
      obtain ⟨hleft, hright⟩ := hedges e he q hq
      constructor <;> linarith

end Figure

namespace Layout

open Figure

variable {s : Settings Rat} {x y y' : Rat}

/-- The loops among some figures, with their ways among the edges `es` and below the height `y`:
each keeps clear of its body, and no two meet. -/
structure Laned (s : Settings Rat) (y : Rat) (es : List (Edge Rat)) (gs : List Figure) : Prop where
  ways : ∀ g ∈ gs, g.ways ⊆ es
  below : ∀ g ∈ gs, ∀ e ∈ g.ways, ∀ q ∈ e.points, y < q.y
  clear : ∀ g ∈ gs, g.KeepsClear s.laneClearance
  apart : gs.Pairwise LanesApart

namespace Laned

variable {es es' : List (Edge Rat)} {f : Figure} {gs gs' : List Figure}

theorem mono (h : Laned s y' es gs) (hy : y ≤ y') (hes : es ⊆ es') : Laned s y es' gs where
  ways g hg := List.Subset.trans (h.ways g hg) hes
  below g hg e he q hq := hy.trans_lt (h.below g hg e he q hq)
  clear := h.clear
  apart := h.apart

theorem nil : Laned s y es [] := ⟨by simp, by simp, by simp, .nil⟩

theorem append (h : Laned s y es gs) (h' : Laned s y es gs')
    (happart : ∀ f ∈ gs, ∀ g ∈ gs', f.LanesApart g) : Laned s y es (gs ++ gs') where
  ways := List.forall_mem_append.mpr ⟨h.ways, h'.ways⟩
  below := List.forall_mem_append.mpr ⟨h.below, h'.below⟩
  clear := List.forall_mem_append.mpr ⟨h.clear, h'.clear⟩
  apart := List.pairwise_append.mpr ⟨h.apart, h'.apart, happart⟩

theorem cons (h : Laned s y es gs) (hways : f.ways ⊆ es)
    (hbelow : ∀ e ∈ f.ways, ∀ q ∈ e.points, y < q.y) (hclear : f.KeepsClear s.laneClearance)
    (happart : ∀ g ∈ gs, f.LanesApart g) : Laned s y es (f :: gs) where
  ways := List.forall_mem_cons.mpr ⟨hways, h.ways⟩
  below := List.forall_mem_cons.mpr ⟨hbelow, h.below⟩
  clear := List.forall_mem_cons.mpr ⟨hclear, h.clear⟩
  apart := List.pairwise_cons.mpr ⟨happart, h.apart⟩

theorem shifted (h : Laned s y es gs) (dx : Rat) :
    Laned s y (es.map (.shifted dx)) (gs.map (.shifted dx)) where
  ways := by
    simp only [List.forall_mem_map, ways_shifted]
    exact fun g hg => List.map_subset _ (h.ways g hg)
  below := by
    simp only [List.forall_mem_map, ways_shifted, Edge.points_shifted, Point.shifted_y]
    exact h.below
  clear := List.forall_mem_map.mpr fun g hg => (h.clear g hg).shifted dx
  apart := List.pairwise_map.mpr (h.apart.imp fun hfg => hfg.shifted dx)

theorem step (kind : StepKind) (box : Box Rat) (next : Option (Edge Rat)) :
    Laned s y es (Figure.step kind box next).parts :=
  nil.cons (by simp [Figure.ways]) (by simp [Figure.ways]) trivial (by simp)

/-- The edge to what follows a node is none of its ways. -/
theorem followed (h : Laned s y es f.parts) (next : Option (Edge Rat)) :
    Laned s y es (f.followed next).parts := by
  cases f with
  | step => exact .step ..
  | branch | loop => exact h

/-! ## Putting parts together -/

variable {whenTrue whenFalse body first rest : Scene Rat} {ts fs : List Figure}

/-- Apart from the branches there are no lanes in an `if`, and the false branch is shifted past the
true one. -/
theorem branch (hs : Tall s) (hclear : 0 < s.laneClearance) {c : String} {t f : List Node}
    (ht : Laned s (innerY s y) whenTrue.edges (partsAll ts))
    (hf : Laned s (innerY s y) whenFalse.edges (partsAll fs)) :
    Laned s y (branchScene s c x y t f whenTrue whenFalse).edges
      (branchFigure s c x y t f whenTrue whenFalse ts fs).parts := by
  let d := diamond s .branch c x y
  let shift := falseShift s d.occupied whenTrue whenFalse
  obtain ⟨hy, -⟩ := le_innerY (y := y) hs
  obtain ⟨m, -, -, hte, -, hfe⟩ := exists_divide s d.occupied whenTrue whenFalse
  have hfs : Laned s (innerY s y) (whenFalse.shifted shift).edges
      (partsAll (shiftedAll shift fs)) := by
    rw [partsAll_shifted]
    exact hf.shifted shift
  have hcross : ∀ f ∈ partsAll ts, ∀ g ∈ partsAll (shiftedAll shift fs), f.LanesApart g :=
    fun f hf' g hg => .of_left (lt_add_of_pos_right m hclear)
      (fun e he => hte e (ht.ways f hf' he)) fun e he => hfe e (hfs.ways g hg he)
  exact ((ht.mono hy whenTrue_edges_subset).append (hfs.mono hy whenFalse_edges_subset) hcross).cons
    (by simp [Figure.ways]) (by simp [Figure.ways]) trivial (by simp [LanesApart, Figure.ways])

/-- Both ways of a loop begin and end below its top. -/
theorem loop (hs : Tall s) (hheight : 0 < s.decisionHeight) (hclear : 0 < s.laneClearance)
    {c : String} {nodes : List Node} (hframed : FramedAll s (innerY s y) nodes body)
    (hshows : Shows nodes body fs) (h : Laned s (innerY s y) body.edges (partsAll fs)) :
    Laned s y (loopScene s c x y nodes body).edges (loopFigure s c x y nodes body fs).parts := by
  have hgap := hs.verticalGap
  obtain ⟨hy, harm⟩ := le_innerY (y := y) hs
  obtain ⟨-, hvertex⟩ := vertexY_le_armY (y := y) hs
  obtain ⟨hconnect, hend, -⟩ := hframed.connect hs
  have htop : y < vertexY s y := lt_add_of_pos_right y (half_pos hheight)
  have hkeeps : (loopFigure s c x y nodes body fs).KeepsClear s.laneClearance := by
    obtain ⟨hboxes, hedges⟩ := loopLanes_clear s x body
    rw [← hshows.boxes] at hboxes
    rw [← hshows.edges] at hedges
    exact ⟨_, _, ⟨_, _, rfl⟩, ⟨_, _, rfl⟩, hboxes, hedges⟩
  have hbelow : ∀ e ∈ (loopFigure s c x y nodes body fs).ways, ∀ q ∈ e.points, y < q.y := by
    simp only [loopFigure, Figure.ways, List.forall_mem_cons, Edge.points_loopBack,
      Edge.points_loopExit, List.not_mem_nil, false_imp_iff, implies_true, and_true]
    refine ⟨⟨?_, ?_, htop, htop⟩, htop, htop, ?_, ?_⟩ <;> linarith
  have hways : (loopFigure s c x y nodes body fs).ways ⊆ (loopScene s c x y nodes body).edges :=
    fun e he => List.mem_cons_of_mem _ (List.mem_append_right _ he)
  refine (h.mono hy body_edges_subset).cons hways hbelow hkeeps fun g hg =>
    hkeeps.lanesApart hclear ?_
  rw [hshows.edges]
  exact h.ways g hg

/-- What follows a node lies below all that belongs to it. -/
theorem column (hs : Tall s) {n : Node} {ns : List Node} (hframed : Framed s y first)
    (hf : Laned s y first.edges f.parts) (hr : Laned s first.endY rest.edges (partsAll fs))
    (next : Option (Edge Rat)) :
    Laned s y (columnScene s x y n ns first rest).edges (partsAll (f.followed next :: fs)) := by
  have hfirst := hf.followed next
  have hcross : ∀ g ∈ (f.followed next).parts, ∀ g' ∈ partsAll fs, g.LanesApart g' :=
    fun g hg g' hg' => .of_above
      (fun e he q hq => (hframed.points e (hfirst.ways g hg he) q hq).2) (hr.below g' hg')
  exact (hfirst.mono le_rfl first_edges_subset).append
    (hr.mono (hframed.le_endY hs) rest_edges_subset) hcross

end Laned

/-! ## Whole layouts -/

theorem keepsDrawn_laned (hs : Tall s) (hheight : 0 < s.decisionHeight)
    (hclear : 0 < s.laneClearance) : KeepsDrawn s
    (fun _ y n p f => FramedNode s y n p ∧ ShowsNode n p f ∧ Laned s y p.edges f.parts)
    fun _ y nodes p fs =>
      FramedAll s y nodes p ∧ Shows nodes p fs ∧ Laned s y p.edges (partsAll fs) where
  step x y kind label := ⟨(keeps_framed hs).step 0 x y kind label,
    keepsDrawn_shows.step x y kind label, .step ..⟩
  branch x y c t f _ _ ts fs ht hf :=
    ⟨(keeps_framed hs).branch 0 x y c t f _ _ ht.1 hf.1,
      keepsDrawn_shows.branch x y c t f _ _ ts fs ht.2.1 hf.2.1, .branch hs hclear ht.2.2 hf.2.2⟩
  loop x y c nodes body fs hb :=
    ⟨(keeps_framed hs).loop 0 x y c nodes body hb.1,
      keepsDrawn_shows.loop x y c nodes body fs hb.2.1,
      .loop hs hheight hclear hb.1 hb.2.1 hb.2.2⟩
  nil x y := ⟨(keeps_framed hs).nil 0 x y, (keepsDrawn_shows (s := s)).nil x y, .nil⟩
  cons x y n ns first rest f fs hn hr :=
    ⟨(keeps_framed hs).cons 0 x y n ns first rest hn.1 hr.1,
      keepsDrawn_shows.cons x y n ns first rest f fs hn.2.1 hr.2.1,
      .column hs hn.1.framed hn.2.2 hr.2.2 _⟩

/-- **Lanes.** A layout reads as figures of its nodes. The ways back and out of every loop of it run
in upright lanes that keep the free width from all shapes and connectors of its body, and no lane of
one loop has a point in common with a lane of another. -/
theorem sequence_lanes_apart (hs : Tall s) (hheight : 0 < s.decisionHeight)
    (hclear : 0 < s.laneClearance) {nodes : List Node} {depth : Nat} {p : Scene Rat}
    (h : sequence s nodes x y depth = .ok p) :
    ∃ fs, Shows nodes p fs ∧ (∀ f ∈ partsAll fs, f.KeepsClear s.laneClearance) ∧
      (partsAll fs).Pairwise LanesApart := by
  obtain ⟨-, hshows, hlaned⟩ := (keepsDrawn_laned hs hheight hclear).of_sequence h
  exact ⟨_, hshows, hlaned.clear, hlaned.apart⟩

/-- A loop in a loop, and loops in both branches of an `if`. -/
theorem nested_loops_apart :
    Tall .default ∧ (0 : Rat) < Settings.default.decisionHeight ∧
    (0 : Rat) < Settings.default.laneClearance ∧ ∃ p, sequence (.default : Settings Rat)
      [.loop "a" [.loop "b" [.stop], .branch "c" [.loop "d" []] [.loop "e" [.stop]]],
        .loop "f" [.stop]] 400 50 0 = .ok p ∧
      ∃ fs, Shows [.loop "a" [.loop "b" [.stop], .branch "c" [.loop "d" []] [.loop "e" [.stop]]],
          .loop "f" [.stop]] p fs ∧
        (∀ f ∈ partsAll fs, f.KeepsClear Settings.default.laneClearance) ∧
        (partsAll fs).Pairwise LanesApart := by
  have h : sequence (.default : Settings Rat)
      [.loop "a" [.loop "b" [.stop], .branch "c" [.loop "d" []] [.loop "e" [.stop]]],
        .loop "f" [.stop]] 400 50 0 = .ok _ := rfl
  have hheight : (0 : Rat) < Settings.default.decisionHeight := by decide +kernel
  have hclear : (0 : Rat) < Settings.default.laneClearance := by decide +kernel
  exact ⟨spacious_default.tall, hheight, hclear, _, h,
    sequence_lanes_apart spacious_default.tall hheight hclear h⟩

end Layout

end Flowchart
