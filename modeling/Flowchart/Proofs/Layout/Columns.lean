import Flowchart.Proofs.Layout.Clear

/-!
# Columns

`sequence_columns`: the boxes of a sequence share a column, a true branch or a body that of its
decision, and a false branch lies at least a gap further right. Wherever two boxes of a layout share
a column, be it by chance, the later one stands lower.

* `Box.Precedes`: of two boxes the first ends above the second or left of it. Each box of a layout
  precedes all later ones (`keeps_ordered`), so two in one column can only stand one above the
  other.
* `Figure.Columned`: the columns of the sequences inside a figure.
-/

namespace Flowchart

open Scalar

/-! ## Boxes in order -/

/-- The first box ends above the second, or left of it. -/
def Box.Precedes (a b : Box Rat) : Prop :=
  a.occupied.maxY ≤ b.occupied.minY ∨ a.occupied.maxX ≤ b.occupied.minX

/-- The column of the box runs strictly between the sides of its footprint, and its top lies in the
footprint, above the lower side. -/
structure Box.Upright (b : Box Rat) : Prop where
  minX_lt : b.occupied.minX < b.centerX
  lt_maxX : b.centerX < b.occupied.maxX
  minY_le : b.occupied.minY ≤ b.topY
  lt_maxY : b.topY < b.occupied.maxY

namespace Box

variable {a b : Box Rat}

theorem Precedes.shifted (h : a.Precedes b) (dx : Rat) :
    (a.shifted dx).Precedes (b.shifted dx) := by
  rw [Precedes, occupied_shifted, occupied_shifted]
  exact h.imp_right fun h => add_le_add_left h dx

theorem Upright.shifted (h : a.Upright) (dx : Rat) : (a.shifted dx).Upright := by
  constructor <;> rw [occupied_shifted]
  · exact add_lt_add_left h.minX_lt dx
  · exact add_lt_add_left h.lt_maxX dx
  · exact h.minY_le
  · exact h.lt_maxY

/-- A box that precedes another one in its own column stands higher. -/
theorem Precedes.topY_lt (h : a.Precedes b) (ha : a.Upright) (hb : b.Upright)
    (hcolumn : a.centerX = b.centerX) : a.topY < b.topY := by
  rcases h with habove | hleft
  · exact ha.lt_maxY.trans_le (habove.trans hb.minY_le)
  · have := ha.lt_maxX
    have := hb.minX_lt
    linarith

end Box

namespace Figure

/-! ## Columns of figures -/

/-- The boxes of a sequence stand in the column `x`. -/
def InColumn (x : Rat) (fs : List Figure) : Prop := ∀ f ∈ fs, f.box.centerX = x

/-- The true branch of an `if` and the body of a loop stand in the column of the decision, the false
branch of an `if` in a column at least `gap` further right. -/
def Columned (gap : Rat) : Figure → Prop
  | step .. => True
  | branch box _ _ whenTrue _ whenFalse _ => InColumn box.centerX whenTrue ∧
      ∃ column, box.centerX + gap ≤ column ∧ InColumn column whenFalse
  | loop box _ body _ _ => InColumn box.centerX body

variable {x dx gap : Rat} {f : Figure} {fs : List Figure}

theorem InColumn.shifted (h : InColumn x fs) (dx : Rat) :
    InColumn (x + dx) (shiftedAll dx fs) := by
  rw [shiftedAll_eq_map, InColumn, List.forall_mem_map]
  intro f hf
  have hbox : (f.shifted dx).box = f.box.shifted dx := by cases f <;> rfl
  rw [hbox, ← h f hf]
  rfl

theorem Columned.shifted (h : f.Columned gap) (dx : Rat) : (f.shifted dx).Columned gap := by
  cases f with
  | step => trivial
  | branch box ta fa t tm f fm =>
    obtain ⟨ht, column, hcolumn, hf⟩ := h
    refine ⟨ht.shifted dx, column + dx, ?_, hf.shifted dx⟩
    show box.centerX + dx + gap ≤ column + dx
    linarith
  | loop box arm body back out => exact InColumn.shifted h dx

theorem Columned.followed (h : f.Columned gap) (next : Option (Edge Rat)) :
    (f.followed next).Columned gap := by
  cases f with
  | step => trivial
  | branch | loop => exact h

end Figure

namespace Layout

open Figure

variable {s : Settings Rat} {x y : Rat}

/-- Shapes have a width and a height, and distances are not negative. A diamond stands at least as
high as its square. -/
structure Sizable (s : Settings Rat) : Prop where
  nodeWidth : 0 < s.nodeWidth
  nodeHeight : 0 < s.nodeHeight
  verticalGap : 0 ≤ s.verticalGap
  decisionHeight : 0 < s.decisionHeight
  decisionHalfWidth : 0 < s.decisionHalfWidth
  decisionSize : 0 ≤ s.decisionSize
  decisionSize_le : s.decisionSize ≤ s.decisionHeight
  laneClearance : 0 ≤ s.laneClearance

theorem Sizable.spacious (hs : Sizable s) : Spacious s :=
  ⟨hs.nodeHeight.le, hs.verticalGap, hs.decisionHeight.le, hs.laneClearance⟩

theorem sizable_default : Sizable .default where
  nodeWidth := Nat.cast_pos.mpr (by decide)
  nodeHeight := Nat.cast_pos.mpr (by decide)
  verticalGap := Nat.cast_nonneg _
  decisionHeight := Nat.cast_pos.mpr (by decide)
  decisionHalfWidth := Nat.cast_pos.mpr (by decide)
  decisionSize := Nat.cast_nonneg _
  decisionSize_le := Nat.cast_le.mpr (by decide)
  laneClearance := Nat.cast_nonneg _

/-! ## Order along a layout -/

theorem upright_stepBox (hs : Sizable s) (kind : StepKind) (label : String) :
    (stepBox s kind label x y).Upright := by
  have hwidth := hs.nodeWidth
  have hheight := hs.nodeHeight
  constructor
  case minX_lt | lt_maxX =>
    simp only [stepBox, Box.occupied, Box.center, Bounds.around, half, Scalar.ofNat]
    linarith
  case minY_le => exact (minY_stepBox s x y kind label).le
  case lt_maxY =>
    rw [maxY_stepBox]
    exact lt_add_of_pos_right y hheight

theorem upright_diamond (hs : Sizable s) (kind : NodeKind) (c : String) :
    (diamond s kind c x y).Upright := by
  have hwidth := hs.decisionHalfWidth
  have hheight := hs.decisionHeight
  have hsize := hs.decisionSize
  have hle := hs.decisionSize_le
  constructor
  case minX_lt =>
    rw [minX_diamond]
    exact sub_lt_self x hwidth
  case lt_maxX =>
    rw [maxX_diamond]
    exact lt_add_of_pos_right x hwidth
  case minY_le =>
    rw [minY_diamond]
    simp only [diamond, half, Scalar.ofNat]
    linarith
  case lt_maxY =>
    rw [maxY_diamond]
    simp only [diamond, armY, half, Scalar.ofNat]
    linarith

/-- Each box of the scene is upright and precedes all later ones. -/
structure Ordered (p : Scene Rat) : Prop where
  upright : ∀ b ∈ p.boxes, b.Upright
  precedes : p.boxes.Pairwise Box.Precedes

theorem Ordered.shifted {p : Scene Rat} (h : Ordered p) (dx : Rat) : Ordered (p.shifted dx) where
  upright := List.forall_mem_map.mpr fun b hb => (h.upright b hb).shifted dx
  precedes := List.pairwise_map.mpr (h.precedes.imp fun hab => hab.shifted dx)

/-- A diamond precedes what stands below it. -/
theorem Ordered.decision (hs : Sizable s) {p : Scene Rat} (h : Ordered p)
    (hbelow : ∀ b ∈ p.boxes, innerY s y ≤ b.occupied.minY) (kind : NodeKind) (c : String)
    (edges : List (Edge Rat)) (endY : Rat) :
    Ordered ⟨diamond s kind c x y :: p.boxes, edges, endY⟩ where
  upright := List.forall_mem_cons.mpr ⟨upright_diamond hs kind c, h.upright⟩
  precedes := by
    obtain ⟨-, harm⟩ := le_innerY (y := y) hs.spacious.tall
    refine List.pairwise_cons.mpr ⟨fun b hb => .inl ?_, h.precedes⟩
    rw [maxY_diamond]
    exact harm.trans (hbelow b hb)

/-- The true branch of an `if` precedes the false branch, which is shifted past it. -/
theorem Ordered.branch (hs : Sizable s) {c : String} {t f : List Node}
    {whenTrue whenFalse : Scene Rat} (ht : Ordered whenTrue) (hf : Ordered whenFalse)
    (htBelow : ∀ b ∈ whenTrue.boxes, innerY s y ≤ b.occupied.minY)
    (hfBelow : ∀ b ∈ whenFalse.boxes, innerY s y ≤ b.occupied.minY) :
    Ordered (branchScene s c x y t f whenTrue whenFalse) := by
  let shifted := whenFalse.shifted
    (falseShift s (diamond s .branch c x y).occupied whenTrue whenFalse)
  have hshifted : Ordered shifted := hf.shifted _
  have hboth : Ordered ⟨whenTrue.boxes ++ shifted.boxes, [], y⟩ := by
    refine ⟨List.forall_mem_append.mpr ⟨ht.upright, hshifted.upright⟩, ?_⟩
    refine List.pairwise_append.mpr ⟨ht.precedes, hshifted.precedes, fun a ha b hb => .inr ?_⟩
    exact maxX_le_minX_shifted hs.spacious _ ha hb
  refine hboth.decision hs (List.forall_mem_append.mpr ⟨htBelow, ?_⟩) .branch c _ _
  simp only [shifted, Scene.shifted, List.forall_mem_map, Box.occupied_shifted]
  exact hfBelow

theorem Ordered.cons {n : Node} {ns : List Node} {first rest : Scene Rat} (hf : Ordered first)
    (hr : Ordered rest) (habove : ∀ b ∈ first.boxes, b.occupied.maxY ≤ first.endY)
    (hbelow : ∀ b ∈ rest.boxes, first.endY ≤ b.occupied.minY) :
    Ordered (columnScene s x y n ns first rest) where
  upright := List.forall_mem_append.mpr ⟨hf.upright, hr.upright⟩
  precedes := List.pairwise_append.mpr ⟨hf.precedes, hr.precedes, fun a ha b hb =>
    .inl ((habove a ha).trans (hbelow b hb))⟩

/-- What is laid out keeps to its strip, and each of its boxes precedes all later ones. -/
theorem keeps_ordered (hs : Sizable s) : Keeps s (fun _ _ y _ p => Stacked y p ∧ Ordered p)
    fun _ _ y _ p => Stacked y p ∧ Ordered p where
  step _ _ _ kind label := by
    refine ⟨.step hs.spacious kind label, ?_, List.pairwise_singleton ..⟩
    exact List.forall_mem_singleton.mpr (upright_stepBox hs kind label)
  branch _ _ _ _ _ _ _ _ ht hf :=
    ⟨.branch hs.spacious ht.1 hf.1, .branch hs ht.2 hf.2 ht.1.le_minY hf.1.le_minY⟩
  loop _ _ _ c _ _ hb :=
    ⟨.loop hs.spacious hb.1, hb.2.decision hs hb.1.le_minY .loop c _ _⟩
  nil _ _ y := ⟨.empty y, by simp [Scene.empty], .nil⟩
  cons _ _ _ _ _ _ _ hf hr :=
    ⟨.cons hf.1 hr.1, .cons hf.2 hr.2 hf.1.maxY_le hr.1.le_minY⟩

/-! ## Columns along a layout -/

theorem keepsDrawn_columned : KeepsDrawn s
    (fun x _ _ _ f => f.box.centerX = x ∧ ∀ g ∈ f.parts, g.Columned s.horizontalGap)
    fun x _ _ _ fs => InColumn x fs ∧ ∀ g ∈ partsAll fs, g.Columned s.horizontalGap := by
  constructor
  case step =>
    intro x y kind label
    exact ⟨rfl, List.forall_mem_singleton.mpr trivial⟩
  case branch =>
    intro x y c t f whenTrue whenFalse ts fs ⟨ht, hts⟩ ⟨hf, hfs⟩
    have hshift := falseShift_nonneg (s := s) (diamond s .branch c x y).occupied whenTrue whenFalse
    refine ⟨rfl, List.forall_mem_cons.mpr ⟨⟨ht, _, ?_, hf.shifted _⟩,
      List.forall_mem_append.mpr ⟨hts, ?_⟩⟩⟩
    · exact le_add_of_nonneg_right hshift
    · exact forall_partsAll_shifted (fun _ hg => hg.shifted _) hfs
  case loop =>
    intro x y c nodes body fs ⟨hb, hfs⟩
    exact ⟨rfl, List.forall_mem_cons.mpr ⟨hb, hfs⟩⟩
  case nil =>
    intro x y
    simp [InColumn, partsAll]
  case cons =>
    intro x y n ns first rest f fs ⟨hbox, hparts⟩ ⟨hfs, hrest⟩
    have hfollowed (next : Option (Edge Rat)) : (f.followed next).box = f.box := by
      cases f <;> rfl
    exact ⟨List.forall_mem_cons.mpr ⟨by rw [hfollowed, hbox], hfs⟩,
      forall_partsAll_followed (fun hf => hf.followed _) hparts hrest⟩

/-- **Columns.** A layout reads as figures of its nodes. Those of the sequence stand in its column,
those of a true branch or a body in the column of their decision, and those of a false branch in one
column at least a gap further right. Of any two boxes in one column the later one stands lower. -/
theorem sequence_columns (hs : Sizable s) {nodes : List Node} {depth : Nat} {p : Scene Rat}
    (h : sequence s nodes x y depth = .ok p) :
    (∃ fs, Shows nodes p fs ∧ InColumn x fs ∧
      ∀ f ∈ partsAll fs, f.Columned s.horizontalGap) ∧
    p.boxes.Pairwise fun a b => a.centerX = b.centerX → a.topY < b.topY := by
  obtain ⟨hcolumn, hparts⟩ := keepsDrawn_columned.of_sequence h
  obtain ⟨-, hordered⟩ := (keeps_ordered hs).of_sequence h
  refine ⟨⟨_, keepsDrawn_shows.of_sequence h, hcolumn, hparts⟩, ?_⟩
  refine hordered.precedes.imp_of_mem fun ha hb hab hx => ?_
  exact hab.topY_lt (hordered.upright _ ha) (hordered.upright _ hb) hx

/-- An `if` with an `if` in its true branch: three boxes stand in the second column, one of them in
the false branch of the inner `if` and two in that of a later one. -/
theorem nested_branches_columns : Sizable .default ∧
    ∃ p, sequence (.default : Settings Rat)
      [.branch "a" [.branch "b" [.stop] [.stop]] [.stop], .branch "c" [] [.loop "d" [.stop]]]
        400 50 0 = .ok p ∧ p.boxes.length = 8 ∧
      (p.boxes.filter fun b => b.centerX == 740).length = 3 ∧
      (∃ fs, Shows [.branch "a" [.branch "b" [.stop] [.stop]] [.stop],
          .branch "c" [] [.loop "d" [.stop]]] p fs ∧ InColumn 400 fs ∧
        ∀ f ∈ partsAll fs, f.Columned Settings.default.horizontalGap) ∧
      p.boxes.Pairwise fun a b => a.centerX = b.centerX → a.topY < b.topY := by
  have h : sequence (.default : Settings Rat)
      [.branch "a" [.branch "b" [.stop] [.stop]] [.stop], .branch "c" [] [.loop "d" [.stop]]]
        400 50 0 = .ok _ := rfl
  exact ⟨sizable_default, _, h, rfl, by decide +kernel, sequence_columns sizable_default h⟩

end Layout

end Flowchart
