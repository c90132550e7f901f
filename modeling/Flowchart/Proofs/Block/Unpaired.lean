import Flowchart.Proofs.Block.Braces

/-!
# Braces without a partner

* `Closes`: a block that begins before the fragments is closed by one of them. `closes_iff`: that is
  so if one of their closing braces has no partner before it (`closers`).
* `unpaired`: the opening braces that nothing closes. `leftOpen_eq`: the braces that are open after
  the fragments are these, and those of the braces open before that are not closed.
-/

namespace Flowchart.Block

/-- A block that begins right before the fragments is closed by one of them. -/
def Closes (fs : List Fragment) : Prop :=
  ∃ inner c rest, fs = inner ++ c :: rest ∧ c.isClose = true ∧ Balanced inner

/-- The number of closing braces that have no partner before them. -/
def closers : List Fragment → Nat
  | [] => 0
  | f :: fs =>
    if f.isOpen then closers fs - 1 else if f.isClose then closers fs + 1 else closers fs

variable {f o c : Fragment} {fs inner opened : List Fragment}

theorem closers_cons_open (ho : o.isOpen = true) : closers (o :: fs) = closers fs - 1 := by
  rw [closers, if_pos ho]

theorem closers_cons_close (hc : c.isClose = true) : closers (c :: fs) = closers fs + 1 := by
  cases ho : c.isOpen with
  | true =>
    rw [isClose_of_isOpen ho] at hc
    cases hc
  | false => rw [closers, if_neg (by simp [ho]), if_pos hc]

theorem closers_cons_plain (ho : f.isOpen = false) (hc : f.isClose = false) :
    closers (f :: fs) = closers fs := by
  rw [closers, if_neg (by simp [ho]), if_neg (by simp [hc])]

/-- What has all its partners closes nothing else. -/
theorem Balanced.closers_append (h : Balanced inner) (fs : List Fragment) :
    closers (inner ++ fs) = closers fs := by
  induction h generalizing fs with
  | nil => rfl
  | cons ho hc _ ih => rw [List.cons_append, closers_cons_plain ho hc, ih]
  | nest ho hc _ _ ih ih' =>
    rw [List.cons_append, List.append_assoc, List.cons_append, closers_cons_open ho, ih,
      closers_cons_close hc, ih', Nat.add_sub_cancel]

theorem closers_append_close (hc : c.isClose = true) (hinner : Balanced inner) :
    closers (inner ++ c :: fs) = closers fs + 1 := by
  rw [hinner.closers_append, closers_cons_close hc]

/-- A closing brace without a partner comes after fragments that have all their partners. The
induction is on the length, since a block is left behind as a whole. -/
theorem closes_of_closers_pos (h : 0 < closers fs) : Closes fs := by
  induction hlen : fs.length using Nat.strongRecOn generalizing fs with
  | ind n ih =>
    cases fs with
    | nil => exact absurd h (Nat.lt_irrefl 0)
    | cons f fs =>
      rw [List.length_cons] at hlen
      cases ho : f.isOpen with
      | true =>
        rw [closers_cons_open ho] at h
        obtain ⟨inner, c, rest, rfl, hc, hinner⟩ := ih fs.length (by omega) (by omega) rfl
        rw [closers_append_close hc hinner, Nat.add_sub_cancel] at h
        rw [List.length_append, List.length_cons] at hlen
        obtain ⟨inner', c', rest', rfl, hc', hinner'⟩ := ih rest.length (by omega) h rfl
        exact ⟨f :: (inner ++ c :: inner'), c', rest', by simp, hc', .nest ho hc hinner hinner'⟩
      | false =>
        cases hc : f.isClose with
        | true => exact ⟨[], f, fs, rfl, hc, .nil⟩
        | false =>
          rw [closers_cons_plain ho hc] at h
          obtain ⟨inner, c, rest, rfl, hc', hinner⟩ := ih fs.length (by omega) h rfl
          exact ⟨f :: inner, c, rest, rfl, hc', .cons ho hc hinner⟩

theorem closes_iff : Closes fs ↔ 0 < closers fs := by
  refine ⟨?_, closes_of_closers_pos⟩
  rintro ⟨inner, c, rest, rfl, hc, hinner⟩
  rw [closers_append_close hc hinner]
  exact Nat.succ_pos _

instance (fs : List Fragment) : Decidable (Closes fs) := decidable_of_iff _ closes_iff.symm

/-- The opening braces that have no partner after them. -/
def unpaired : List Fragment → List Fragment
  | [] => []
  | f :: fs => if f.isOpen = true ∧ ¬ Closes fs then f :: unpaired fs else unpaired fs

/-- The braces that are open after the fragments, innermost first, when those of `opened` were open
before. A closing brace closes the innermost one, if any. -/
def leftOpen (opened : List Fragment) : List Fragment → List Fragment
  | [] => opened
  | f :: fs =>
    leftOpen (if f.isOpen then f :: opened else if f.isClose then opened.tail else opened) fs

/-- The braces that are open at the end are those without a partner. -/
theorem leftOpen_eq (opened fs : List Fragment) :
    leftOpen opened fs = (unpaired fs).reverse ++ opened.drop (closers fs) := by
  induction fs generalizing opened with
  | nil => rfl
  | cons f fs ih =>
    simp only [leftOpen, ih, unpaired, closes_iff]
    cases ho : f.isOpen with
    | true =>
      rw [closers_cons_open ho]
      rcases Nat.eq_zero_or_pos (closers fs) with hn | hn
      · simp [hn]
      · obtain ⟨n, hn'⟩ := Nat.exists_eq_add_of_lt hn
        simp [hn']
    | false =>
      cases hc : f.isClose with
      | true => simp [closers_cons_close hc, List.drop_tail]
      | false => simp [closers_cons_plain ho hc]

/-- Fragments that are no braces make no difference. -/
theorem unpaired_filter (fs : List Fragment) :
    unpaired (fs.filter fun f => f.isOpen || f.isClose) = unpaired fs := by
  have hopen (fs : List Fragment) : unpaired fs = (leftOpen [] fs).reverse := by
    rw [leftOpen_eq, List.drop_nil, List.append_nil, List.reverse_reverse]
  have hleft (opened : List Fragment) :
      leftOpen opened (fs.filter fun f => f.isOpen || f.isClose) = leftOpen opened fs := by
    induction fs generalizing opened with
    | nil => rfl
    | cons f fs ih =>
      cases ho : f.isOpen <;> cases hc : f.isClose <;> simp [leftOpen, ho, hc, ih]
  rw [hopen, hopen, hleft]

end Flowchart.Block
