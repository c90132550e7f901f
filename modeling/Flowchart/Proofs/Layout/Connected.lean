import Mathlib.Data.List.Chain
import Flowchart.Proofs.Layout.Figure
import Flowchart.Proofs.Layout.Frame

/-!
# The drawn flow

`sequence_connected`: in a layout the flow leads from each node on to the next one, out of each
branch and back from each loop's body, with one gap. The way back of a loop begins a gap above the
point where the flow leaves a body that ends with a decision.

* `Figure.entry`, `Figure.exit`: where the flow comes to a figure and where it leaves it.
* `Joined`: the flow leads from one figure to the next, directly or along an edge between them.
* `Figure.Connected`: the ways out of the sequences inside a figure take up the flow.
-/

namespace Flowchart

open Scalar

namespace Figure

/-! ## Where the flow comes and goes -/

/-- The top centre of what the node occupies. -/
def entry (f : Figure) : Point Rat := ⟨f.box.centerX, f.box.occupied.minY⟩

/-- The bottom centre of a step; where the ways out of an `if` come together; where the way out of a
loop ends. -/
def exit : Figure → Point Rat
  | step _ box _ => ⟨box.centerX, box.bounds.maxY⟩
  | branch _ _ _ _ trueMerge _ _ => trueMerge.target
  | loop _ _ _ _ out => out.target

/-- The way out begins where the way in has arrived if the sequence between them is empty, and
otherwise passes the exit of its last figure. -/
def LeavesBy (arm : Edge Rat) (fs : List Figure) (out : Edge Rat) : Prop :=
  (fs = [] → out.source = arm.target) ∧ ∀ last ∈ fs.getLast?, last.exit ∈ out.line

/-- Both ways out of an `if` take up its branches and end in one point. The way back of a loop takes
up its body, except that it misses the exit of a last decision by the gap. -/
def Connected (gap : Rat) : Figure → Prop
  | step .. => True
  | branch _ trueArm falseArm whenTrue trueMerge whenFalse falseMerge =>
    trueMerge.target = falseMerge.target ∧ LeavesBy trueArm whenTrue trueMerge ∧
      LeavesBy falseArm whenFalse falseMerge
  | loop _ arm body back _ => (body = [] → back.source = arm.target) ∧
      ∀ last ∈ body.getLast?, last.exit ∈ back.line ↔ last.isStep ∨ gap = 0

/-- The flow leads from `f` to `g`: they meet, or one of the edges runs from one to the other. -/
def Joined (es : List (Edge Rat)) (f g : Figure) : Prop :=
  f.exit = g.entry ∨ ∃ e ∈ es, e.kind = .sequence ∧ e.source = f.exit ∧ e.target = g.entry

/-- In the figure and in all figures inside it, the ways out take up the flow, and it leads through
the sequences. -/
def Flows (gap : Rat) (es : List (Edge Rat)) (g : Figure) : Prop :=
  g.Connected gap ∧ ∀ seq ∈ g.inner, seq.IsChain (Joined es)

variable {gap dx : Rat} {es es' : List (Edge Rat)} {f g : Figure} {fs : List Figure}

theorem Joined.mono (hes : es ⊆ es') (h : Joined es f g) : Joined es' f g :=
  h.imp_right fun ⟨e, he, hrest⟩ => ⟨e, hes he, hrest⟩

theorem Flows.mono (hes : es ⊆ es') (h : Flows gap es g) : Flows gap es' g :=
  ⟨h.1, fun seq hseq => (h.2 seq hseq).imp fun _ _ => Joined.mono hes⟩

/-! ## Shifts -/

theorem entry_shifted : (f.shifted dx).entry = f.entry.shifted dx := by
  cases f <;> exact (Point.shifted_eq ..).symm

theorem exit_shifted : (f.shifted dx).exit = f.exit.shifted dx := by
  cases f with
  | step => exact (Point.shifted_eq ..).symm
  | branch | loop => rfl

theorem isStep_shifted : (f.shifted dx).isStep = f.isStep := by
  cases f <;> rfl

theorem shifted_mem_line {e : Edge Rat} {p : Point Rat} :
    p.shifted dx ∈ (e.shifted dx).line ↔ p ∈ e.line := by
  rw [Edge.mem_line_shifted, Point.shifted_x, Point.shifted_y, add_sub_cancel_right]

theorem getLast?_shiftedAll : (shiftedAll dx fs).getLast? = fs.getLast?.map (shifted dx) := by
  rw [shiftedAll_eq_map, List.getLast?_map]

theorem Joined.shifted (h : Joined es f g) :
    Joined (es.map (.shifted dx)) (f.shifted dx) (g.shifted dx) := by
  simp only [Figure.Joined, exit_shifted, entry_shifted]
  refine h.imp (congrArg _) ?_
  rintro ⟨e, he, hkind, hsource, htarget⟩
  exact ⟨_, List.mem_map_of_mem he, hkind, congrArg (Point.shifted dx) hsource,
    congrArg (Point.shifted dx) htarget⟩

theorem isChain_shiftedAll (h : fs.IsChain (Joined es)) :
    (shiftedAll dx fs).IsChain (Joined (es.map (.shifted dx))) := by
  rw [shiftedAll_eq_map, List.isChain_map]
  exact h.imp fun _ _ => Joined.shifted

theorem LeavesBy.shifted {arm out : Edge Rat} (h : LeavesBy arm fs out) :
    LeavesBy (arm.shifted dx) (shiftedAll dx fs) (out.shifted dx) := by
  refine ⟨fun hnil => congrArg (Point.shifted dx) (h.1 (shiftedAll_eq_nil.mp hnil)), ?_⟩
  simp only [getLast?_shiftedAll, Option.mem_map, forall_exists_index, and_imp,
    forall_apply_eq_imp_iff₂, exit_shifted, shifted_mem_line]
  exact h.2

theorem Connected.shifted (h : f.Connected gap) : (f.shifted dx).Connected gap := by
  cases f with
  | step => trivial
  | branch => exact ⟨congrArg (Point.shifted dx) h.1, h.2.1.shifted, h.2.2.shifted⟩
  | loop =>
    refine ⟨fun hnil => congrArg (Point.shifted dx) (h.1 (shiftedAll_eq_nil.mp hnil)), ?_⟩
    simp only [getLast?_shiftedAll, Option.mem_map, forall_exists_index, and_imp,
      forall_apply_eq_imp_iff₂, exit_shifted, shifted_mem_line, isStep_shifted]
    exact h.2

theorem Flows.shifted (h : Flows gap es f) :
    Flows gap (es.map (.shifted dx)) (f.shifted dx) := by
  refine ⟨h.1.shifted, ?_⟩
  have hinner : (f.shifted dx).inner = f.inner.map (shiftedAll dx) := by cases f <;> rfl
  rw [hinner, List.forall_mem_map]
  exact fun seq hseq => isChain_shiftedAll (h.2 seq hseq)

/-! ## The edge to what follows -/

variable {next : Option (Edge Rat)}

theorem entry_followed : (f.followed next).entry = f.entry := by cases f <;> rfl

theorem exit_followed : (f.followed next).exit = f.exit := by cases f <;> rfl

theorem isStep_followed : (f.followed next).isStep = f.isStep := by cases f <;> rfl

theorem Flows.followed (h : Flows gap es f) : Flows gap es (f.followed next) := by
  cases f with
  | step => exact ⟨trivial, by simp [Figure.followed, Figure.inner]⟩
  | branch | loop => exact h

end Figure

namespace Layout

open Figure

variable {s : Settings Rat} {x y : Rat}

/-- The flow leaves a step at its bottom, a gap above the end of its layout, and a decision at the
end of its layout. -/
def exitY (s : Settings Rat) (f : Figure) (p : Scene Rat) : Rat :=
  if f.isStep then p.endY - s.verticalGap else p.endY

/-- What is known of the layout of a node, drawn as `f` in the column `x`. -/
structure FlowNode (s : Settings Rat) (x y : Rat) (n : Node) (p : Scene Rat) (f : Figure) :
    Prop where
  framed : FramedNode s y n p
  shows : ShowsNode n p f
  entry : f.entry = ⟨x, y⟩
  exit : f.exit = ⟨x, exitY s f p⟩
  flows : ∀ g ∈ f.parts, g.Flows s.verticalGap p.edges

/-- What is known of the layout of a sequence, drawn as `fs` in the column `x`. -/
structure FlowAll (s : Settings Rat) (x y : Rat) (nodes : List Node) (p : Scene Rat)
    (fs : List Figure) : Prop where
  framed : FramedAll s y nodes p
  shows : Shows nodes p fs
  entry : ∀ f ∈ fs.head?, f.entry = ⟨x, y⟩
  exit : ∀ f ∈ fs.getLast?, f.exit = ⟨x, exitY s f p⟩
  chain : fs.IsChain (Joined p.edges)
  flows : ∀ g ∈ partsAll fs, g.Flows s.verticalGap p.edges

/-! ## One way of putting parts together at a time -/

theorem entry_diamond (kind : NodeKind) (c : String) :
    (⟨(diamond s kind c x y).centerX, (diamond s kind c x y).occupied.minY⟩ : Point Rat) =
      ⟨x, y⟩ := by
  rw [minY_diamond]
  rfl

theorem FlowNode.step (hs : Spacious s) (kind : StepKind) (label : String) :
    FlowNode s x y (.step kind label) (stepScene s kind label x y)
      (.step kind (stepBox s kind label x y) none) where
  framed := (keeps_framed hs.tall).step 0 x y kind label
  shows := keepsDrawn_shows.step x y kind label
  entry := by
    rw [Figure.entry, Figure.box, minY_stepBox]
    rfl
  exit := by
    have hbounds : (stepBox s kind label x y).bounds = (stepBox s kind label x y).occupied := rfl
    have hend : y + (s.nodeHeight + s.verticalGap) - s.verticalGap = y + s.nodeHeight := by ring
    simp only [Figure.exit, hbounds, maxY_stepBox, exitY, isStep, ↓reduceIte, stepScene, hend]
    rfl
  flows := by
    rw [parts, List.forall_mem_singleton]
    exact ⟨trivial, by simp [Figure.inner]⟩

section Ways

variable {nodes : List Node} {p : Scene Rat} {fs : List Figure}

theorem FlowAll.eq_nil_iff (h : FlowAll s x y nodes p fs) : fs = [] ↔ nodes = [] := by
  rw [← nodeAll_eq_nil_iff, h.shows.nodes]

/-- The flow leaves a sequence between the height where its way out begins and the end of its
layout. -/
theorem FlowAll.exit_last (hs : Spacious s) (h : FlowAll s x (innerY s y) nodes p fs) {f : Figure}
    (hf : f ∈ fs.getLast?) :
    f.exit.x = x ∧ connectY s y nodes p ≤ f.exit.y ∧ f.exit.y ≤ p.endY ∧
      (f.exit.y = connectY s y nodes p ↔ f.isStep ∨ s.verticalGap = 0) := by
  have hgap := hs.verticalGap
  have hn : nodes ≠ [] := fun hn => by simp [h.eq_nil_iff.mpr hn] at hf
  have hconnect : connectY s y nodes p = p.endY - s.verticalGap := by simp [connectY, hn]
  rw [h.exit f hf, hconnect]
  cases hstep : f.isStep with
  | true => simp [exitY, hstep, hgap]
  | false =>
    have heq : p.endY = p.endY - s.verticalGap ↔ s.verticalGap = 0 := by
      rw [eq_comm, sub_eq_self]
    simp [exitY, hstep, hgap, heq]

theorem FlowAll.connectY_nil (h : FlowAll s x (innerY s y) nodes p fs) (hnil : fs = []) :
    connectY s y nodes p = innerY s y := by
  simp [connectY, h.eq_nil_iff.mp hnil]

/-- The way out of the true branch runs down its column. -/
theorem FlowAll.leavesBy_down (hs : Spacious s) (h : FlowAll s x (innerY s y) nodes p fs) {b : Rat}
    (hb : p.endY ≤ b) :
    LeavesBy (.trueArm x (armY s y) (innerY s y)) fs (.down .merge x (connectY s y nodes p) b) := by
  refine ⟨fun hnil => ?_, fun last hlast => ?_⟩
  · rw [Edge.source_down, Edge.target_trueArm, h.connectY_nil hnil]
  · obtain ⟨hx, hconnect, hend, -⟩ := h.exit_last hs hlast
    refine ⟨(⟨x, connectY s y nodes p⟩, ⟨x, b⟩), ?_, ?_⟩
    · simp [Edge.segments, Edge.points_down]
    · exact Point.mem_segment_of_column hx hconnect (hend.trans hb)

/-- The way out of the false branch runs down its column, then across. -/
theorem FlowAll.leavesBy_falseMerge (hs : Spacious s) (h : FlowAll s x (innerY s y) nodes p fs)
    {b column : Rat} (hb : p.endY ≤ b) (vertex : Point Rat) (dx : Rat) :
    LeavesBy (.falseArm vertex (x + dx) (innerY s y)) (shiftedAll dx fs)
      (.falseMerge (x + dx) (connectY s y nodes p) column b) := by
  refine ⟨fun hnil => ?_, fun last hlast => ?_⟩
  · rw [Edge.falseMerge, Edge.falseArm, h.connectY_nil (shiftedAll_eq_nil.mp hnil)]
  · rw [getLast?_shiftedAll] at hlast
    obtain ⟨f, hf, rfl⟩ := Option.mem_map.mp hlast
    obtain ⟨hx, hconnect, hend, -⟩ := h.exit_last hs hf
    rw [exit_shifted]
    refine ⟨(⟨x + dx, connectY s y nodes p⟩, ⟨x + dx, b⟩), List.mem_cons_self, ?_⟩
    refine Point.mem_segment_of_column ?_ ?_ ?_
    · rw [Point.shifted_x, hx]
    · rwa [Point.shifted_y]
    · rw [Point.shifted_y]
      exact hend.trans hb

/-- The way back of a loop begins at the highest point where the flow may leave the body. -/
theorem FlowAll.exit_mem_loopBack (hs : Spacious s) (h : FlowAll s x (innerY s y) nodes p fs)
    {f : Figure} (hf : f ∈ fs.getLast?) (lane left : Rat) :
    f.exit ∈ (Edge.loopBack ⟨x, connectY s y nodes p⟩ lane ⟨left, vertexY s y⟩).line ↔
      f.isStep ∨ s.verticalGap = 0 := by
  obtain ⟨hx, hconnect, -, heq⟩ := h.exit_last hs hf
  obtain ⟨-, harm⟩ := le_innerY (y := y) hs.tall
  obtain ⟨-, hvertex⟩ := vertexY_le_armY (y := y) hs.tall
  obtain ⟨hc, -⟩ := h.framed.connect hs.tall
  rw [← heq]
  constructor
  · intro hmem
    refine le_antisymm (Edge.y_le_of_mem_line ?_ hmem) hconnect
    simp only [Edge.points_loopBack, List.forall_mem_cons]
    exact ⟨le_rfl, le_rfl, by linarith, by linarith, by simp⟩
  · intro hy
    have hexit : f.exit =
        (Edge.loopBack ⟨x, connectY s y nodes p⟩ lane ⟨left, vertexY s y⟩).source :=
      congrArg₂ Point.mk hx hy
    rw [hexit]
    exact Edge.source_mem_line _

end Ways

theorem FlowNode.branch (hs : Spacious s) {c : String} {t f : List Node}
    {whenTrue whenFalse : Scene Rat} {ts fs : List Figure}
    (ht : FlowAll s x (innerY s y) t whenTrue ts)
    (hf : FlowAll s (x + s.horizontalGap) (innerY s y) f whenFalse fs) :
    FlowNode s x y (.branch c t f) (branchScene s c x y t f whenTrue whenFalse)
      (branchFigure s c x y t f whenTrue whenFalse ts fs) := by
  have hgap := hs.verticalGap
  have htm : whenTrue.endY ≤ greatest whenTrue.endY whenFalse.endY := le_max_left ..
  have hfm : whenFalse.endY ≤ greatest whenTrue.endY whenFalse.endY := le_max_right ..
  have hshows := (keepsDrawn_shows (s := s)).branch x y c t f whenTrue whenFalse ts fs ht.shows
    hf.shows
  refine ⟨(keeps_framed hs.tall).branch 0 x y c t f whenTrue whenFalse ht.framed hf.framed, hshows,
    entry_diamond .., Edge.target_down .., ?_⟩
  have hbranch : Connected s.verticalGap (branchFigure s c x y t f whenTrue whenFalse ts fs) :=
    ⟨Edge.target_down .., ht.leavesBy_down hs (by linarith),
      hf.leavesBy_falseMerge hs (by linarith) _ _⟩
  refine List.forall_mem_cons.mpr ⟨⟨hbranch, ?_⟩, List.forall_mem_append.mpr ⟨?_, ?_⟩⟩
  · simp only [Figure.inner, List.forall_mem_cons, List.not_mem_nil, false_imp_iff, implies_true,
      and_true]
    exact ⟨ht.chain.imp fun _ _ => Joined.mono whenTrue_edges_subset,
      (isChain_shiftedAll hf.chain).imp fun _ _ => Joined.mono whenFalse_edges_subset⟩
  · exact fun g hg => (ht.flows g hg).mono whenTrue_edges_subset
  · exact forall_partsAll_shifted (fun _ hg => hg.shifted.mono whenFalse_edges_subset) hf.flows

theorem FlowNode.loop (hs : Spacious s) {c : String} {nodes : List Node} {body : Scene Rat}
    {fs : List Figure} (hb : FlowAll s x (innerY s y) nodes body fs) :
    FlowNode s x y (.loop c nodes) (loopScene s c x y nodes body)
      (loopFigure s c x y nodes body fs) := by
  have hshows := (keepsDrawn_shows (s := s)).loop x y c nodes body fs hb.shows
  refine ⟨(keeps_framed hs.tall).loop 0 x y c nodes body hb.framed, hshows, entry_diamond .., rfl,
    ?_⟩
  have hloop : Connected s.verticalGap (loopFigure s c x y nodes body fs) := by
    refine ⟨fun hnil => ?_, fun last hlast => hb.exit_mem_loopBack hs hlast _ _⟩
    rw [Edge.target_trueArm, Edge.loopBack, hb.connectY_nil hnil]
  refine List.forall_mem_cons.mpr ⟨⟨hloop, ?_⟩, fun g hg =>
    (hb.flows g hg).mono body_edges_subset⟩
  rw [Figure.inner, List.forall_mem_singleton]
  exact hb.chain.imp fun _ _ => Joined.mono body_edges_subset

/-- The flow leads from a node to what follows it. -/
theorem FlowNode.joined {n m : Node} {ms : List Node} {p : Scene Rat}
    {f g : Figure} (h : FlowNode s x y n p f) (hg : g.entry = ⟨x, p.endY⟩)
    (next : Option (Edge Rat)) :
    Joined (sequenceEdges s n (m :: ms) x y p.endY) (f.followed next) g := by
  rw [Figure.Joined, exit_followed, h.exit, hg, exitY]
  cases n with
  | step kind label =>
    right
    have hstep : f.isStep = true := by
      have := h.shows.node
      cases f <;> simp_all [Figure.node, isStep]
    have hend := h.framed.endY_step kind label rfl
    refine ⟨_, List.mem_singleton_self _, Edge.kind_down .., ?_, Edge.target_down ..⟩
    rw [Edge.source_down, if_pos hstep, hend, add_sub_assoc, add_sub_cancel_right]
  | branch | loop =>
    left
    have hstep : f.isStep = false := by
      have := h.shows.node
      cases f <;> simp_all [Figure.node, isStep]
    rw [if_neg (by simp [hstep])]

theorem FlowAll.cons (hs : Spacious s) {n : Node} {ns : List Node} {first rest : Scene Rat}
    {f : Figure} {fs : List Figure} (hn : FlowNode s x y n first f)
    (hr : FlowAll s x first.endY ns rest fs) :
    FlowAll s x y (n :: ns) (columnScene s x y n ns first rest)
      (f.followed (sequenceEdges s n ns x y first.endY).head? :: fs) := by
  have hshows := (keepsDrawn_shows (s := s)).cons x y n ns first rest f fs hn.shows hr.shows
  constructor
  case framed => exact (keeps_framed hs.tall).cons 0 x y n ns first rest hn.framed hr.framed
  case shows => exact hshows
  case entry =>
    intro g hg
    obtain rfl := Option.some.inj hg
    exact entry_followed.trans hn.entry
  case exit =>
    intro g hg
    cases fs with
    | nil =>
      obtain rfl : f.followed _ = g := Option.some.inj hg
      have hns := hr.eq_nil_iff.mp rfl
      have hend : rest.endY = first.endY := by rw [hr.framed.of_nil hns, Scene.empty]
      rw [exit_followed, hn.exit, exitY, exitY, isStep_followed, columnScene, hend]
    | cons f' fs' => exact hr.exit g hg
  case chain =>
    have hrchain : fs.IsChain (Joined (columnScene s x y n ns first rest).edges) :=
      hr.chain.imp fun _ _ => Joined.mono rest_edges_subset
    cases fs with
    | nil => exact .singleton _
    | cons f' fs' =>
      cases ns with
      | nil => exact absurd (hr.eq_nil_iff.mpr rfl) (List.cons_ne_nil _ _)
      | cons m ms =>
        have hentry := hr.entry f' rfl
        exact .cons_cons ((hn.joined hentry _).mono sequenceEdges_subset) hrchain
  case flows =>
    exact forall_partsAll_followed (fun hf => hf.followed)
      (fun g hg => (hn.flows g hg).mono first_edges_subset)
      fun g hg => (hr.flows g hg).mono rest_edges_subset

/-! ## Whole layouts -/

theorem keepsDrawn_flow (hs : Spacious s) : KeepsDrawn s (FlowNode s) (FlowAll s) where
  step _ _ := .step hs
  branch _ _ _ _ _ _ _ _ _ := .branch hs
  loop _ _ _ _ _ _ := .loop hs
  nil x y := by
    refine ⟨(keeps_framed hs.tall).nil 0 x y, (keepsDrawn_shows (s := s)).nil x y, ?_, ?_, .nil,
      ?_⟩ <;> simp [partsAll]
  cons _ _ _ _ _ _ _ _ := .cons hs

/-- **The drawn flow.** A layout reads as figures of its nodes, through which the flow leads: from
each node of a sequence to the next, out of every branch along its way out, and out of the body of a
loop along the way back if the body ends with a step. -/
theorem sequence_connected (hs : Spacious s) {nodes : List Node} {depth : Nat} {p : Scene Rat}
    (h : sequence s nodes x y depth = .ok p) :
    ∃ fs, Shows nodes p fs ∧ fs.IsChain (Joined p.edges) ∧ ∀ f ∈ partsAll fs,
      f.Connected s.verticalGap ∧ ∀ seq ∈ f.inner, seq.IsChain (Joined p.edges) :=
  have hflow := (keepsDrawn_flow hs).of_sequence h
  ⟨_, hflow.shows, hflow.chain, hflow.flows⟩

/-- An `if` without a false branch at the end of a loop's body, behind a loop with an empty body. -/
theorem loop_around_if_connected :
    Spacious .default ∧ ∃ p, sequence (.default : Settings Rat)
      [.start, .loop "a" [.loop "b" [], .branch "c" [.stop, .stop] []], .stop] 400 50 0 = .ok p ∧
      p.edges.length = 12 ∧ ∃ fs,
        Shows [.start, .loop "a" [.loop "b" [], .branch "c" [.stop, .stop] []], .stop] p fs ∧
        fs.IsChain (Joined p.edges) ∧ ∀ f ∈ partsAll fs,
          f.Connected Settings.default.verticalGap ∧
            ∀ seq ∈ f.inner, seq.IsChain (Joined p.edges) := by
  have h : sequence (.default : Settings Rat)
      [.start, .loop "a" [.loop "b" [], .branch "c" [.stop, .stop] []], .stop] 400 50 0 = .ok _ :=
    rfl
  exact ⟨spacious_default, _, h, rfl, sequence_connected spacious_default h⟩

/-- The branches of an `if` come together below the point where the way back of the loop around it
begins. -/
theorem loop_around_if_apart :
    ∃ p, sequence (.default : Settings Rat)
        [.loop "a" [.branch "b" [.step .process "p"] [.step .process "q"]]] 400 50 0 = .ok p ∧
      ∃ merge ∈ p.edges, merge.kind = .merge ∧ ∃ back ∈ p.edges, back.kind = .loopBack ∧
        merge.target ∉ back.line := by
  obtain ⟨p, h, ⟨merge, hmerge, hmergeKind, htarget⟩, back, hback, hbackKind, hpoints⟩ :
      ∃ p, sequence (.default : Settings Rat)
        [.loop "a" [.branch "b" [.step .process "p"] [.step .process "q"]]] 400 50 0 = .ok p ∧
      (∃ e ∈ p.edges, e.kind = .merge ∧ e.target = ⟨400, 1042⟩) ∧
      ∃ e ∈ p.edges, e.kind = .loopBack ∧
        e.points = [⟨400, 922⟩, ⟨247, 922⟩, ⟨247, 163⟩, ⟨287, 163⟩] :=
    ⟨_, rfl, by decide +kernel, by decide +kernel⟩
  refine ⟨p, h, merge, hmerge, hmergeKind, back, hback, hbackKind, fun hmem => ?_⟩
  have hbelow := Edge.y_le_of_mem_line (m := 922) (by rw [hpoints]; decide +kernel) hmem
  rw [htarget] at hbelow
  norm_num at hbelow

end Layout

end Flowchart
