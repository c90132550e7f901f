import Flowchart.Proofs.Flow
import Flowchart.Proofs.Layout.Induction

/-!
# Which flow trees are laid out

A tree is laid out if and only if all of its decisions have room for what is inside them
(`exists_sequence_eq_ok_iff`). Neither the place nor the other settings matter.

`sequence_depth_guard`: there is room if the limit is no less than the depth of the sequence and the
nesting of its decisions together. All limits that leave room give the same layout, and all others
give the error that tells the limit.
-/

namespace Flowchart.Layout

open Node

variable {α : Type} [Scalar α] {s : Settings α} {limit depth : Nat} {n : Node} {ns : List Node}

/-- What is inside a decision of a sequence that lies `depth` levels deep is no deeper than `limit`
levels, whether there are nodes in it or not. -/
def Shallow (limit depth : Nat) (ns : List Node) : Prop :=
  ∀ k n, Within k n ns → n.kind.isDecision = true → depth + k < limit

namespace Shallow

theorem nil : Shallow limit depth [] := fun _ _ h => absurd h within_nil

theorem cons_iff :
    Shallow limit depth (n :: ns) ↔ Shallow limit depth [n] ∧ Shallow limit depth ns := by
  constructor
  · intro h
    exact ⟨fun k m hm => h k m (within_cons.mpr (.inl hm)),
      fun k m hm => h k m (within_cons.mpr (.inr hm))⟩
  · rintro ⟨hn, hns⟩ k m hm
    rcases within_cons.mp hm with hm | hm
    · exact hn k m hm
    · exact hns k m hm

theorem step (kind : StepKind) (label : String) : Shallow limit depth [.step kind label] := by
  intro k m hm hdecision
  cases k with
  | zero =>
    obtain rfl := within_zero_singleton.mp hm
    cases hdecision
  | succ k => simp [Node.inner] at hm

/-- A decision needs one more level than it lies deep, and so do the sequences inside it. -/
theorem decision_iff (hn : n.kind.isDecision = true) :
    Shallow limit depth [n] ↔
      depth + 1 ≤ limit ∧ ∀ seq ∈ n.inner, Shallow limit (depth + 1) seq := by
  constructor
  · intro h
    refine ⟨h 0 n (within_zero_singleton.mpr rfl) hn, fun seq hseq k m hm hdecision => ?_⟩
    have := h (k + 1) m (within_succ_singleton.mpr ⟨seq, hseq, hm⟩) hdecision
    omega
  · rintro ⟨hle, hin⟩ k m hm hdecision
    cases k with
    | zero => exact hle
    | succ k =>
      obtain ⟨seq, hseq, hm⟩ := within_succ_singleton.mp hm
      have := hin seq hseq k m hm hdecision
      omega

end Shallow

mutual

theorem exists_node_eq_ok_iff (s : Settings α) (depth : Nat) (x y : α) (n : Node) :
    (∃ p, node s depth x y n = .ok p) ↔ Shallow s.maxDepth depth [n] := by
  cases n with
  | step kind label => exact iff_of_true ⟨_, by rw [node]⟩ (.step kind label)
  | branch c t f =>
    have ht := exists_column_eq_ok_iff s (depth + 1) x (innerY s y) t
    have hf := exists_column_eq_ok_iff s (depth + 1) (x + s.horizontalGap) (innerY s y) f
    rw [Shallow.decision_iff rfl]
    simp only [Node.inner, List.forall_mem_cons, List.not_mem_nil, false_implies, implies_true,
      and_true, ← ht, ← hf]
    constructor
    · rintro ⟨p, hp⟩
      obtain ⟨hle, whenTrue, whenFalse, ht, hf, -⟩ := node_branch_eq_ok.mp hp
      exact ⟨hle, ⟨whenTrue, ht⟩, whenFalse, hf⟩
    · rintro ⟨hle, ⟨whenTrue, ht⟩, whenFalse, hf⟩
      exact ⟨_, node_branch_eq_ok.mpr ⟨hle, whenTrue, whenFalse, ht, hf, rfl⟩⟩
  | loop c nodes =>
    have hbody := exists_column_eq_ok_iff s (depth + 1) x (innerY s y) nodes
    rw [Shallow.decision_iff rfl]
    simp only [Node.inner, List.forall_mem_singleton, ← hbody]
    constructor
    · rintro ⟨p, hp⟩
      obtain ⟨hle, body, hbody, -⟩ := node_loop_eq_ok.mp hp
      exact ⟨hle, body, hbody⟩
    · rintro ⟨hle, body, hbody⟩
      exact ⟨_, node_loop_eq_ok.mpr ⟨hle, body, hbody, rfl⟩⟩
termination_by sizeOf n

theorem exists_column_eq_ok_iff (s : Settings α) (depth : Nat) (x y : α) (ns : List Node) :
    (∃ p, column s depth x y ns = .ok p) ↔ Shallow s.maxDepth depth ns := by
  cases ns with
  | nil => exact iff_of_true ⟨_, by rw [column]⟩ .nil
  | cons n ns =>
    -- Where the other nodes begin depends on the first one, but whether they are laid out does not.
    rw [Shallow.cons_iff, ← exists_node_eq_ok_iff s depth x y n]
    constructor
    · rintro ⟨p, hp⟩
      obtain ⟨first, rest, hn, hns, -⟩ := column_cons_eq_ok.mp hp
      exact ⟨⟨first, hn⟩, (exists_column_eq_ok_iff s depth x first.endY ns).mp ⟨rest, hns⟩⟩
    · rintro ⟨⟨first, hn⟩, hns⟩
      obtain ⟨rest, hns⟩ := (exists_column_eq_ok_iff s depth x first.endY ns).mpr hns
      exact ⟨_, column_cons_eq_ok.mpr ⟨first, rest, hn, hns, rfl⟩⟩
termination_by sizeOf ns

end

/-- A sequence is laid out if and only if it does not lie too deep itself and all of its decisions
have room. -/
theorem exists_sequence_eq_ok_iff {x y : α} : (∃ p, sequence s ns x y depth = .ok p) ↔
    depth ≤ s.maxDepth ∧ Shallow s.maxDepth depth ns := by
  simp only [sequence_eq_ok, exists_and_left, exists_column_eq_ok_iff]

/-! ## The limit and the nesting of decisions -/

mutual

theorem shallow_node_iff {depth : Nat} (hd : depth ≤ limit) (n : Node) :
    Shallow limit depth [n] ↔ depth + n.nesting ≤ limit := by
  cases n with
  | step kind label => exact iff_of_true (.step kind label) hd
  | branch c t f =>
    rw [Shallow.decision_iff rfl, nesting]
    simp only [Node.inner, List.forall_mem_cons, List.not_mem_nil, false_implies, implies_true,
      and_true]
    by_cases hlt : depth + 1 ≤ limit
    · rw [shallow_iff hlt t, shallow_iff hlt f]
      omega
    · exact iff_of_false (fun h => hlt h.1) (by omega)
  | loop c body =>
    rw [Shallow.decision_iff rfl, nesting]
    simp only [Node.inner, List.forall_mem_singleton]
    by_cases hlt : depth + 1 ≤ limit
    · rw [shallow_iff hlt body]
      omega
    · exact iff_of_false (fun h => hlt h.1) (by omega)
termination_by sizeOf n

/-- There is room for all decisions of a sequence if there is for those that nest deepest. -/
theorem shallow_iff {depth : Nat} (hd : depth ≤ limit) (ns : List Node) :
    Shallow limit depth ns ↔ depth + nestingAll ns ≤ limit := by
  cases ns with
  | nil => exact iff_of_true .nil hd
  | cons n ns =>
    rw [Shallow.cons_iff, shallow_node_iff hd n, shallow_iff hd ns, nestingAll]
    omega
termination_by sizeOf ns

end

theorem exists_sequence_eq_ok_iff_nesting {x y : α} :
    (∃ p, sequence s ns x y depth = .ok p) ↔ depth + nestingAll ns ≤ s.maxDepth := by
  rw [exists_sequence_eq_ok_iff]
  constructor
  · rintro ⟨hd, h⟩
    exact (shallow_iff hd ns).mp h
  · intro h
    have hd : depth ≤ s.maxDepth := by omega
    exact ⟨hd, (shallow_iff hd ns).mpr h⟩

/-! ## Layouts that fail -/

theorem bind_eq_error {ε β γ : Type} {part : Except ε β} {rest : β → Except ε γ} {e : ε} :
    part >>= rest = .error e ↔ part = .error e ∨ ∃ b, part = .ok b ∧ rest b = .error e := by
  cases part <;> simp [bind, Except.bind]

mutual

theorem eq_of_node_eq_error {depth : Nat} {x y : α} {n : Node} {e : TooDeep}
    (h : node s depth x y n = .error e) : e = ⟨s.maxDepth⟩ := by
  cases n with
  | step kind label =>
    rw [node] at h
    cases h
  | branch c t f =>
    rw [node] at h
    split at h
    · exact (Except.error.inj h).symm
    · rcases bind_eq_error.mp h with ht | ⟨_, -, h⟩
      · exact eq_of_column_eq_error ht
      rcases bind_eq_error.mp h with hf | ⟨_, -, h⟩
      · exact eq_of_column_eq_error hf
      · cases h
  | loop c nodes =>
    rw [node] at h
    split at h
    · exact (Except.error.inj h).symm
    · rcases bind_eq_error.mp h with hb | ⟨_, -, h⟩
      · exact eq_of_column_eq_error hb
      · cases h
termination_by sizeOf n

theorem eq_of_column_eq_error {depth : Nat} {x y : α} {ns : List Node} {e : TooDeep}
    (h : column s depth x y ns = .error e) : e = ⟨s.maxDepth⟩ := by
  cases ns with
  | nil =>
    rw [column] at h
    cases h
  | cons n ns =>
    rw [column] at h
    rcases bind_eq_error.mp h with hn | ⟨_, -, h⟩
    · exact eq_of_node_eq_error hn
    rcases bind_eq_error.mp h with hs | ⟨_, -, h⟩
    · exact eq_of_column_eq_error hs
    · cases h
termination_by sizeOf ns

end

/-- A layout that fails says how deep sequences may lie. -/
theorem eq_of_sequence_eq_error {x y : α} {e : TooDeep}
    (h : sequence s ns x y depth = .error e) : e = ⟨s.maxDepth⟩ := by
  unfold sequence at h
  split at h
  · exact (Except.error.inj h).symm
  · exact eq_of_column_eq_error h

/-- Two limits make no difference to what is laid out under both. -/
theorem keepsBoth_limits (s : Settings α) (limit limit' : Nat) :
    KeepsBoth { s with maxDepth := limit } { s with maxDepth := limit' }
      (fun o o' _ p p' => o = o' → p = p') fun o o' _ p p' => o = o' → p = p' := by
  constructor
  case step =>
    rintro o _ kind label rfl
    rfl
  case branch =>
    rintro o _ c t f _ _ _ _ ht hf rfl
    rw [ht rfl, hf rfl]
    rfl
  case loop =>
    rintro o _ c nodes _ _ hb rfl
    rw [hb rfl]
    rfl
  case nil =>
    rintro o _ rfl
    rfl
  case cons =>
    rintro o _ n ns _ _ _ _ hn hns rfl
    obtain rfl := hn rfl
    rw [hns rfl]
    rfl

/-- **The depth guard.** A sequence fails under exactly those limits that its depth and the nesting
of its decisions exceed together. Under all others it is laid out, and always alike. -/
theorem sequence_depth_guard (s : Settings α) (nodes : List Node) (x y : α) (depth : Nat) :
    ∃ p, ∀ limit,
      (sequence { s with maxDepth := limit } nodes x y depth = .error ⟨limit⟩ ↔
        limit < depth + nestingAll nodes) ∧
      (depth + nestingAll nodes ≤ limit →
        sequence { s with maxDepth := limit } nodes x y depth = .ok p) := by
  have hok (limit : Nat) : (∃ p, sequence { s with maxDepth := limit } nodes x y depth = .ok p) ↔
      depth + nestingAll nodes ≤ limit := exists_sequence_eq_ok_iff_nesting
  obtain ⟨p, hp⟩ := (hok _).mpr (Nat.le_refl (depth + nestingAll nodes))
  refine ⟨p, fun limit => ⟨?_, fun hle => ?_⟩⟩
  · rw [← Nat.not_le, ← hok limit]
    cases hseq : sequence { s with maxDepth := limit } nodes x y depth with
    | error e =>
      obtain rfl := eq_of_sequence_eq_error hseq
      simp
    | ok q => simp
  · obtain ⟨q, hq⟩ := (hok limit).mpr hle
    rw [hq, (keepsBoth_limits s _ _).of_sequence hq hp rfl]

/-- A loop without a body counts, wherever it stands. -/
example : nestingAll [.start, .branch "a" [.stop] [.loop "b" []], .stop] = 2 := rfl

end Flowchart.Layout
