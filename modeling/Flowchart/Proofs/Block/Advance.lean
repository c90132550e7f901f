import Flowchart.Proofs.Block.Indexed

/-!
# Reading advances

* `Inside`: a reading by index asks for no fragment outside the sequence, and what it gives has a
  property.
* `inside_applyAt`: a rule that applies at an index of the sequence stays inside it and ends after
  that index. `inside_readAt`: so a block does, whatever the number of steps.
* `EndsAfter`: where the block that begins at an index may end.
* `readFrom_advances`: every rule advances, the reading of a block comes to an end, and it ends
  where a block may end.
-/

namespace Flowchart

namespace Block

variable {limit depth i j next : Nat} {fs : List Fragment} {nested : Nat → Nat → Located}

/-! ## Readings inside the sequence -/

/-- The reading asks for no fragment outside the sequence, and what it gives has the property. -/
def Inside {α : Type} (x : Except Fault α) (P : α → Prop) : Prop :=
  match x with
  | .ok a => P a
  | .error fault => ∀ i, fault ≠ .outside i

namespace Inside

variable {α β : Type} {x : Except Fault α} {f : α → Except Fault β} {P Q : α → Prop} {R : β → Prop}

theorem mono (h : Inside x P) (hPQ : ∀ a, P a → Q a) : Inside x Q := by
  cases x with
  | error fault => exact h
  | ok a => exact hPQ a h

theorem bind (hx : Inside x P) (hf : ∀ a, P a → Inside (f a) R) : Inside (x >>= f) R := by
  cases x with
  | error fault => exact hx
  | ok a => exact hf a hx

end Inside

theorem inside_fragmentAt (hi : i < fs.length) : Inside (fragmentAt fs i) fun _ => True := by
  rw [fragmentAt, List.getElem?_eq_getElem hi]
  trivial

theorem inside_sliceAt (hij : i ≤ j) (hj : j ≤ fs.length) :
    Inside (sliceAt fs i j) fun run => run = (fs.take j).drop i := by
  rw [sliceAt, if_pos ⟨hij, hj⟩]
  rfl

/-! ## One rule -/

/-- There is no text where no fragment is. -/
theorem textAt_of_length_le (h : fs.length ≤ i) : Rule.textAt fs i = [] := by
  rw [Rule.textAt, List.getElem?_eq_none h]
  rfl

theorem lt_length_of_any {P : Fragment → Bool} (h : fs[i]?.any P = true) : i < fs.length := by
  by_contra hnot
  simp [List.getElem?_eq_none (Nat.le_of_not_lt hnot)] at h

/-- What is read begins at index `i` or later and ends inside the sequence. -/
def Spans (fs : List Fragment) (i : Nat) (r : List Node × Nat) : Prop := i ≤ r.2 ∧ r.2 ≤ fs.length

/-- Blocks that are read by the reader stay inside the sequence. -/
def StaysInside (fs : List Fragment) (nested : Nat → Nat → Located) : Prop :=
  ∀ depth i : Nat, i ≤ fs.length → Inside (nested depth i) (Spans fs i)

theorem StaysInside.bodyAt (hn : StaysInside fs nested) (f : Fragment) (hi : i ≤ fs.length) :
    Inside (bodyAt limit fs nested depth f i) (Spans fs i) := by
  unfold Block.bodyAt
  split
  · next ho =>
    split
    · exact fun _ => Fault.noConfusion
    · exact (hn _ _ (lt_length_of_any ho)).mono fun r hr => ⟨Nat.le_of_succ_le hr.1, hr.2⟩
  · exact ⟨Nat.le_refl _, hi⟩

/-- The search for the end of a run of output calls does not find the first of them. -/
theorem stop_of_output {tail : List Fragment} (hi : i < fs.length) (htail : tail = fs.drop i)
    (ho : Statement.isOutput (Rule.textAt fs i) = true) :
    let stop := ((tail.findIdx? fun f => !Statement.isOutput f.text).map (i + ·)).getD fs.length
    i < stop ∧ stop ≤ fs.length := by
  have hlength : tail.length = fs.length - i := by rw [htail, List.length_drop]
  have hfirst : tail[0]? = fs[i]? := by rw [htail, List.getElem?_drop, Nat.add_zero]
  cases hk : tail.findIdx? fun f => !Statement.isOutput f.text with
  | none => exact ⟨hi, Nat.le_refl _⟩
  | some k =>
    obtain ⟨hlt, hother, -⟩ := List.findIdx?_eq_some_iff_getElem.mp hk
    have hne : k ≠ 0 := by
      rintro rfl
      have htext : Rule.textAt fs i = tail[0].text := by
        rw [Rule.textAt, ← hfirst, List.getElem?_eq_getElem hlt]
        rfl
      rw [← htext, ho] at hother
      cases hother
    simp only [Option.map_some, Option.getD_some]
    omega

/-- A rule that applies at an index of the sequence stays inside the sequence and ends after that
index. -/
theorem inside_applyAt (hn : StaysInside fs nested) (hi : i < fs.length) {rule : Rule}
    (ha : rule.appliesAt fs i = true) :
    Inside (applyAt limit fs nested depth i rule) (Spans fs (i + 1)) := by
  cases rule with
  | declaration | input | stop | process => exact ⟨Nat.le_refl _, hi⟩
  | promptedInput =>
    rw [Rule.appliesAt, Bool.and_eq_true] at ha
    have hnext : i + 1 < fs.length := by
      by_contra hnot
      rw [textAt_of_length_le (Nat.le_of_not_lt hnot)] at ha
      exact absurd ha.2 (by decide)
    exact ⟨Nat.le_succ _, hnext⟩
  | loop =>
    exact (inside_fragmentAt hi).bind fun header _ => (hn.bodyAt header hi).bind fun _ hr => hr
  | branch =>
    refine (inside_fragmentAt hi).bind fun header _ => (hn.bodyAt header hi).bind fun r hr => ?_
    dsimp only
    split
    · next he =>
      refine (hn.bodyAt header (lt_length_of_any he)).bind fun u hu => ?_
      exact ⟨Nat.le_trans hr.1 (Nat.le_of_succ_le hu.1), hu.2⟩
    · exact hr
  | output =>
    refine (inside_sliceAt (Nat.le_of_lt hi) (Nat.le_refl _)).bind fun tail htail => ?_
    rw [List.take_length] at htail
    obtain ⟨hlt, hle⟩ := stop_of_output hi htail ha
    exact (inside_sliceAt (Nat.le_of_lt hlt) hle).bind fun run _ => ⟨hlt, hle⟩

/-! ## A block -/

theorem appliesAt_firstAt (fs : List Fragment) (i : Nat) :
    (Rule.firstAt fs i).appliesAt fs i = true := by
  unfold Rule.firstAt
  cases h : Rule.table.find? (·.appliesAt fs i) with
  | none => rfl
  | some rule => exact List.find?_some h

/-- A block that begins at index `start` may end right before index `next`: at the end of the
sequence or with a closing brace. -/
structure EndsAfter (fs : List Fragment) (start next : Nat) : Prop where
  le_next : start ≤ next
  advances : start < fs.length → start < next
  next_le : next ≤ fs.length
  closed : next = fs.length ∨ ∃ i c, fs[i]? = some c ∧ c.isClose = true ∧ next = i + 1

theorem EndsAfter.of_lt (h : EndsAfter fs j next) (hij : i < j) : EndsAfter fs i next where
  le_next := Nat.le_trans (Nat.le_of_lt hij) h.le_next
  advances _ := Nat.lt_of_lt_of_le hij h.le_next
  next_le := h.next_le
  closed := h.closed

theorem EndsAfter.spans {r : List Node × Nat} (h : EndsAfter fs i r.2) : Spans fs i r :=
  ⟨h.le_next, h.next_le⟩

/-- However few steps there are, a block stays inside the sequence. -/
theorem inside_readAt (steps : Nat) (hi : i ≤ fs.length) :
    Inside (readAt limit fs steps depth i) fun r => EndsAfter fs i r.2 := by
  induction steps generalizing depth i with
  | zero => exact fun _ => Fault.noConfusion
  | succ steps ih =>
    have hstays : StaysInside fs (readAt limit fs steps) := fun _ _ hj =>
      (ih hj).mono fun _ => (·.spans)
    unfold readAt
    cases hf : fs[i]? with
    | none =>
      have hle : fs.length ≤ i := List.getElem?_eq_none_iff.mp hf
      exact ⟨Nat.le_refl _, fun hlt => absurd hle (Nat.not_le.mpr hlt), hi,
        .inl (Nat.le_antisymm hi hle)⟩
    | some f =>
      have hlt : i < fs.length := (List.getElem?_eq_some_iff.mp hf).1
      dsimp only
      split
      · next hc => exact ⟨Nat.le_succ _, fun _ => Nat.lt_succ_self _, hlt, .inr ⟨i, f, hf, hc, rfl⟩⟩
      · split
        · exact (ih hlt).mono fun r hr => hr.of_lt (Nat.lt_succ_self _)
        · refine (inside_applyAt hstays hlt (appliesAt_firstAt fs i)).bind fun s hs => ?_
          refine (ih hs.2).bind fun r hr => ?_
          exact hr.of_lt (Nat.lt_of_succ_le hs.1)

theorem staysInside_readAt (limit : Nat) (fs : List Fragment) (steps : Nat) :
    StaysInside fs (readAt limit fs steps) := fun _ _ hi =>
  (inside_readAt steps hi).mono fun _ => (·.spans)

/-! ## Reading to the end -/

theorem endsAfter_of_readFrom {start : Nat} {ns : List Node} (hs : start ≤ fs.length)
    (h : readFrom limit depth start fs = .ok (ns, next)) : EndsAfter fs start next := by
  have hread := readAt_eq_readFrom limit fs (Nat.lt_succ_self (fs.length - start)) depth
  have hinside : Inside (readAt limit fs (fs.length - start + 1) depth start) fun r =>
      EndsAfter fs start r.2 := inside_readAt _ hs
  rw [hread, h] at hinside
  exact hinside

/-- **Advance.** A rule that applies at an index of the sequence asks for nothing outside it, and
the next index that it gives is greater and not past the end. So the reading of a block comes to an
end: one step for each fragment from its start on, and one more, give what `readFrom` gives. The
index after a block is greater than the index at which it begins, and not past the end, if it begins
inside the sequence; else it is the same. It is the end or one past a closing brace, unless the
block begins past the end. -/
theorem readFrom_advances (limit : Nat) (fs : List Fragment) :
    (∀ {steps depth i : Nat} {rule : Rule}, i < fs.length → rule.appliesAt fs i = true →
      Inside (applyAt limit fs (readAt limit fs steps) depth i rule) fun r =>
        i < r.2 ∧ r.2 ≤ fs.length) ∧
    (∀ {steps start : Nat}, fs.length - start < steps → ∀ depth,
      readAt limit fs steps depth start = (readFrom limit depth start fs).mapError .tooDeep) ∧
    ∀ {depth start next : Nat} {ns : List Node}, readFrom limit depth start fs = .ok (ns, next) →
      (start < fs.length → start < next ∧ next ≤ fs.length) ∧ (fs.length ≤ start → next = start) ∧
      (start ≤ fs.length →
        next = fs.length ∨ ∃ i c, fs[i]? = some c ∧ c.isClose = true ∧ next = i + 1) := by
  refine ⟨fun hi ha => ?_, fun hs depth => readAt_eq_readFrom limit fs hs depth, fun h => ?_⟩
  · exact inside_applyAt (staysInside_readAt _ _ _) hi ha
  · refine ⟨fun hs => ?_, fun hs => ?_, fun hs => (endsAfter_of_readFrom hs h).closed⟩
    · have hend := endsAfter_of_readFrom (Nat.le_of_lt hs) h
      exact ⟨hend.advances hs, hend.next_le⟩
    · rw [readFrom_of_length_le hs] at h
      exact (Prod.mk.inj (Except.ok.inj h)).2.symm

/-- The body of a loop is read up to its closing brace: `while (a) { x; } y;`. -/
theorem readFrom_advances_body :
    let fs : List Fragment := [⟨"while (a)".toList, .between 0 9⟩, ⟨['{'], .between 10 11⟩,
      ⟨"x;".toList, .between 12 14⟩, ⟨['}'], .between 15 16⟩, ⟨"y;".toList, .between 17 19⟩]
    readAt 64 fs 4 1 2 = .ok ([.step .process "x"], 4) ∧
      readFrom 64 1 2 fs = .ok ([.step .process "x"], 4) ∧ 4 < fs.length ∧
      ∃ i c, fs[i]? = some c ∧ c.isClose = true ∧ 4 = i + 1 := by
  intro fs
  have hreads : Reads 64 1 (.block (fs.drop 2)) [.step .process "x"] (fs.drop 4) :=
    .cons rfl rfl (.process (by decide +kernel)) (.close rfl)
  have hread : readFrom 64 1 2 fs = .ok ([.step .process "x"], 4) := by
    rw [readFrom, reads_block_iff.mpr hreads]
    rfl
  obtain ⟨-, hsteps, hends⟩ := readFrom_advances 64 fs
  have hindexed : readAt 64 fs 4 1 2 = .ok ([.step .process "x"], 4) := by
    rw [hsteps (by decide), hread]
    rfl
  obtain ⟨-, -, hclosed⟩ := hends hread
  exact ⟨hindexed, hread, by decide, (hclosed (by decide)).resolve_left (by decide)⟩

/-- Past the end the next index is neither the end nor one past a brace. -/
theorem readFrom_past_end : readFrom 64 0 1 [] = .ok ([], 1) ∧
    ¬(1 = ([] : List Fragment).length ∨
      ∃ i c, ([] : List Fragment)[i]? = some c ∧ c.isClose = true ∧ 1 = i + 1) :=
  ⟨readFrom_of_length_le (Nat.le_succ _), by simp⟩

end Block

end Flowchart
