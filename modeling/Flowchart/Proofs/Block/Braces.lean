import Flowchart.Fragment

/-!
# Matching braces

* `Balanced`: every brace of a sequence of fragments has its partner in it.
* `HasMatch`: a closing brace after the fragments has its partner among them.
* `unclosed_pos_iff`: that is so if and only if counting leaves a brace open.
-/

namespace Flowchart

namespace Block

/-! ## Bracket matching -/

/-- Every brace has its partner. -/
inductive Balanced : List Fragment → Prop where
  | nil : Balanced []
  | cons {f : Fragment} {fs : List Fragment} (ho : f.isOpen = false) (hc : f.isClose = false)
      (rest : Balanced fs) : Balanced (f :: fs)
  | nest {o c : Fragment} {inner fs : List Fragment} (ho : o.isOpen = true) (hc : c.isClose = true)
      (inside : Balanced inner) (rest : Balanced fs) : Balanced (o :: (inner ++ c :: fs))

/-- A closing brace after these fragments has its partner among them. -/
def HasMatch (before : List Fragment) : Prop :=
  ∃ outer o inner, before = outer ++ o :: inner ∧ o.isOpen = true ∧ Balanced inner

/-- The number of braces left open, when `n` are open before the fragments. A closing brace with
none open counts for nothing. -/
def unclosed (n : Nat) : List Fragment → Nat
  | [] => n
  | f :: fs => unclosed (if f.isOpen then n + 1 else if f.isClose then n - 1 else n) fs

variable {f o c : Fragment} {fs before inner : List Fragment} {n : Nat}

theorem isClose_of_isOpen (h : f.isOpen = true) : f.isClose = false := by
  simp only [Fragment.isOpen, beq_iff_eq] at h
  simp [Fragment.isClose, h]

@[simp] theorem unclosed_nil (n : Nat) : unclosed n [] = n := rfl

@[simp] theorem unclosed_append (n : Nat) (as bs : List Fragment) :
    unclosed n (as ++ bs) = unclosed (unclosed n as) bs := by
  induction as generalizing n with
  | nil => rfl
  | cons a as ih => simp [unclosed, ih]

theorem unclosed_cons_open (ho : o.isOpen = true) : unclosed n (o :: fs) = unclosed (n + 1) fs := by
  rw [unclosed, if_pos ho]

theorem unclosed_cons_close (hc : c.isClose = true) :
    unclosed n (c :: fs) = unclosed (n - 1) fs := by
  cases ho : c.isOpen with
  | true =>
    rw [isClose_of_isOpen ho] at hc
    cases hc
  | false => rw [unclosed, if_neg (by simp [ho]), if_pos hc]

theorem unclosed_cons_plain (ho : f.isOpen = false) (hc : f.isClose = false) :
    unclosed n (f :: fs) = unclosed n fs := by
  rw [unclosed, if_neg (by simp [ho]), if_neg (by simp [hc])]

namespace Balanced

theorem append (h : Balanced inner) (h' : Balanced fs) : Balanced (inner ++ fs) := by
  induction h with
  | nil => exact h'
  | cons ho hc _ ih => exact .cons ho hc ih
  | nest ho hc inside _ _ ih =>
    rw [List.cons_append, List.append_assoc, List.cons_append]
    exact .nest ho hc inside ih

theorem unclosed_eq (h : Balanced fs) (n : Nat) : unclosed n fs = n := by
  induction h generalizing n with
  | nil => rfl
  | cons ho hc _ ih => rw [unclosed_cons_plain ho hc, ih]
  | nest ho hc _ _ ih ih' =>
    rw [unclosed_cons_open ho, unclosed_append, ih, unclosed_cons_close hc, Nat.add_sub_cancel, ih']

end Balanced

theorem HasMatch.append (h : HasMatch before) (outer : List Fragment) :
    HasMatch (outer ++ before) := by
  obtain ⟨outer', o, inner, rfl, ho, hi⟩ := h
  exact ⟨outer ++ outer', o, inner, by simp, ho, hi⟩

/-- Every closing brace of a balanced sequence has its partner before it. -/
theorem Balanced.hasMatch (h : Balanced fs) {after : List Fragment}
    (heq : fs = before ++ c :: after) (hc : c.isClose = true) : HasMatch before := by
  induction h generalizing before after with
  | nil => simp at heq
  | @cons f fs _ hf _ ih =>
    cases before with
    | nil =>
      obtain ⟨rfl, -⟩ := List.cons.inj heq
      rw [hc] at hf
      cases hf
    | cons b bs =>
      rw [List.cons_append, List.cons.injEq] at heq
      exact (ih heq.2).append [b]
  | @nest o c' inner rest ho hc' inside _ ih ih' =>
    cases before with
    | nil =>
      obtain ⟨rfl, -⟩ := List.cons.inj heq
      rw [isClose_of_isOpen ho] at hc
      cases hc
    | cons b bs =>
      rw [List.cons_append, List.cons.injEq] at heq
      obtain ⟨rfl, htail⟩ := heq
      rcases List.append_eq_append_iff.mp htail with ⟨mid, rfl, hmid⟩ | ⟨mid, rfl, hmid⟩
      · cases mid with
        | nil => exact ⟨[], o, inner, by simp, ho, inside⟩
        | cons m mid =>
          obtain ⟨rfl, hrest⟩ := List.cons.inj hmid
          have := (ih' hrest).append (o :: (inner ++ [c']))
          simpa using this
      · cases mid with
        | nil => exact ⟨[], o, bs, rfl, ho, by simpa using inside⟩
        | cons m mid =>
          obtain ⟨rfl, -⟩ := List.cons.inj hmid
          exact (ih rfl).append [o]

/-- The innermost brace left open. The induction is on the length, since a closing brace is left
behind together with all that it closes. -/
theorem exists_open_of_unclosed (h : unclosed 0 before = n + 1) :
    ∃ outer o inner, before = outer ++ o :: inner ∧ o.isOpen = true ∧ Balanced inner ∧
      unclosed 0 outer = n := by
  induction hlen : before.length using Nat.strongRecOn generalizing before n with
  | ind len ih =>
    rcases List.eq_nil_or_concat before with rfl | ⟨init, f, rfl⟩
    · simp at h
    · rw [List.concat_eq_append] at h hlen ⊢
      rw [List.length_append, List.length_singleton] at hlen
      rw [unclosed_append] at h
      cases ho : f.isOpen with
      | true =>
        rw [unclosed_cons_open ho, unclosed_nil] at h
        exact ⟨init, f, [], rfl, ho, .nil, by omega⟩
      | false =>
        cases hc : f.isClose with
        | false =>
          rw [unclosed_cons_plain ho hc, unclosed_nil] at h
          obtain ⟨outer, o, inner, rfl, ho', hi, hn⟩ := ih init.length (by omega) h rfl
          exact ⟨outer, o, inner ++ [f], by simp, ho', hi.append (.cons ho hc .nil), hn⟩
        | true =>
          rw [unclosed_cons_close hc, unclosed_nil] at h
          obtain ⟨outer, o, inner, rfl, ho', hi, hn⟩ :=
            ih init.length (by omega) (show unclosed 0 init = (n + 1) + 1 by omega) rfl
          rw [List.length_append] at hlen
          obtain ⟨outer', o', inner', rfl, ho'', hi', hn'⟩ := ih outer.length (by omega) hn rfl
          refine ⟨outer', o', inner' ++ o :: (inner ++ [f]), by simp, ho'', ?_, hn'⟩
          exact hi'.append (.nest ho' hc hi .nil)

/-- A brace is left open if and only if a closing brace would have a partner. -/
theorem unclosed_pos_iff : 0 < unclosed 0 before ↔ HasMatch before := by
  constructor
  · intro h
    obtain ⟨n, hn⟩ := Nat.exists_eq_add_of_lt h
    rw [Nat.zero_add] at hn
    obtain ⟨outer, o, inner, heq, ho, hi, -⟩ := exists_open_of_unclosed hn
    exact ⟨outer, o, inner, heq, ho, hi⟩
  · rintro ⟨outer, o, inner, rfl, ho, hi⟩
    rw [unclosed_append, unclosed_cons_open ho, hi.unclosed_eq]
    omega

end Block

end Flowchart
