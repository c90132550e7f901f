import Flowchart.Proofs.Block.Stop

/-!
# The blocks that headers open

`openings` goes through fragments once and lists the blocks that headers open, each with the number
of such blocks around it. It knows nothing of nodes or of a limit.

* `find?_openings_depth`: the first block with at least so many around it has exactly so many.
* `depth_openings_lt`: a block has fewer around it than there are opening braces.
* `header_openings`: the header of a block is one of the fragments.
-/

namespace Flowchart

namespace Block

/-- A block that a header opens. -/
structure Opening where
  header : Fragment
  /-- The number of blocks of headers around it. -/
  depth : Nat

/-- What the fragments before a place mean for those after it. Where `Control` only tells whether
there is a header, this tells which one, and it goes on after a brace without one. -/
structure Context where
  /-- The header whose block an opening brace here opens. -/
  header : Option Fragment
  /-- The `if` that an `else` here belongs to. -/
  branch : Option Fragment
  /-- The blocks of headers under way, innermost first: for each the `if` that an `else` after it
  belongs to. -/
  blocks : List (Option Fragment)

namespace Context

/-- No header awaits anything. -/
def idle (blocks : List (Option Fragment)) : Context := ⟨none, none, blocks⟩

/-- The context after the innermost block. There is none after the outermost sequence, which no
header opens. -/
def leave (σ : Context) : Option Context :=
  match σ.blocks with
  | [] => none
  | branch :: blocks => some ⟨none, branch, blocks⟩

/-- The context after a fragment that is neither a brace nor the `else` of an `if`. -/
def await (σ : Context) (f : Fragment) : Context :=
  match Rule.of f [] with
  | .branch => ⟨some f, some f, σ.blocks⟩
  | .loop => ⟨some f, none, σ.blocks⟩
  | _ => idle σ.blocks

/-- The context after a fragment; none where reading ends. -/
def step (σ : Context) (f : Fragment) : Option Context :=
  if f.isClose then σ.leave
  else if f.isOpen then
    match σ.header with
    | none => some (idle σ.blocks)
    | some _ => some (idle (σ.branch :: σ.blocks))
  else if f.isElse && σ.branch.isSome then some ⟨σ.branch, none, σ.blocks⟩
  else some (σ.await f)

/-- The block that a fragment opens, if it opens one. -/
def opening? (σ : Context) (f : Fragment) : Option Opening :=
  if f.isOpen then σ.header.map fun header => ⟨header, σ.blocks.length⟩ else none

end Context

/-- The blocks that fragments open in a context, in the order of reading. -/
def openings : Option Context → List Fragment → List Opening
  | none, _ | some _, [] => []
  | some σ, f :: fs => (σ.opening? f).toList ++ openings (σ.step f) fs

variable {σ τ : Context} {f o : Fragment} {fs : List Fragment} {k : Nat}

@[simp] theorem openings_none (fs : List Fragment) : openings none fs = [] := by
  cases fs <;> rfl

@[simp] theorem openings_nil (σ : Option Context) : openings σ [] = [] := by
  cases σ <;> rfl

/-- The fragment is the header of a block. -/
def IsHeader (f : Fragment) : Prop := Rule.of f [] = .branch ∨ Rule.of f [] = .loop

/-! ## What a fragment does -/

namespace Context

/-- A closing brace leaves the innermost block; an opening brace that a header awaits opens a block;
any other fragment opens none, leaves none, and only a header or the `else` of an `if` awaits a
block after it. -/
theorem step_cases (σ : Context) (f : Fragment) :
    (σ.opening? f = none ∧ σ.step f = σ.leave) ∨
    (∃ header ∈ σ.header, f.isOpen = true ∧ σ.opening? f = some ⟨header, σ.blocks.length⟩ ∧
      σ.step f = some (idle (σ.branch :: σ.blocks))) ∨
    (σ.opening? f = none ∧ ∃ header branch, σ.step f = some ⟨header, branch, σ.blocks⟩ ∧
      (∀ g ∈ header, g ∈ σ.branch ∨ g = f ∧ IsHeader f) ∧
      ∀ g ∈ branch, g = f ∧ IsHeader f) := by
  unfold opening? step
  by_cases hc : f.isClose = true
  · refine .inl ⟨if_neg fun ho => ?_, if_pos hc⟩
    rw [isClose_of_isOpen ho] at hc
    cases hc
  rw [if_neg hc]
  by_cases ho : f.isOpen = true
  · rw [if_pos ho, if_pos ho]
    cases hh : σ.header with
    | none => exact .inr (.inr ⟨rfl, none, none, rfl, by simp, by simp⟩)
    | some header => exact .inr (.inl ⟨header, rfl, ho, rfl, rfl⟩)
  rw [if_neg ho, if_neg ho]
  refine .inr (.inr ⟨rfl, ?_⟩)
  split
  · exact ⟨σ.branch, none, rfl, fun g hg => .inl hg, by simp⟩
  · unfold await
    split
    · rename_i hr
      exact ⟨some f, some f, rfl, by simp [IsHeader, hr], by simp [IsHeader, hr]⟩
    · rename_i hr
      exact ⟨some f, none, rfl, by simp [IsHeader, hr], by simp⟩
    · exact ⟨none, none, rfl, by simp, by simp⟩

theorem length_leave_lt (h : σ.leave = some τ) : τ.blocks.length < σ.blocks.length := by
  unfold leave at h
  split at h
  · cases h
  · rename_i branch blocks hblocks
    obtain rfl := Option.some.inj h
    simp [hblocks]

end Context

/-! ## The number of blocks around -/

/-- The first block with at least `k` blocks around it has exactly `k` around it. -/
theorem find?_openings_depth (hk : σ.blocks.length ≤ k) :
    (openings (some σ) fs).find? (k ≤ ·.depth) = (openings (some σ) fs).find? (·.depth = k) := by
  induction fs generalizing σ with
  | nil => simp
  | cons f fs ih =>
    rw [openings]
    rcases σ.step_cases f with ⟨hopen, hstep⟩ | ⟨header, -, -, hopen, hstep⟩ |
      ⟨hopen, header, branch, hstep, -, -⟩
    · rw [hopen, hstep, Option.toList_none, List.nil_append]
      cases hτ : σ.leave with
      | none => simp
      | some τ => exact ih ((Nat.le_of_lt (Context.length_leave_lt hτ)).trans hk)
    · rw [hopen, hstep, Option.toList_some, List.singleton_append]
      by_cases hkd : k = σ.blocks.length
      · simp [hkd]
      · have hlt : ¬k ≤ σ.blocks.length := by omega
        have hne : ¬σ.blocks.length = k := by omega
        simp only [List.find?_cons, hlt, hne, decide_false]
        exact ih (show σ.blocks.length + 1 ≤ k by omega)
    · rw [hopen, hstep, Option.toList_none, List.nil_append]
      exact ih hk

/-- A block that a header opens has fewer blocks around it than there are opening braces. -/
theorem depth_openings_lt :
    ∀ o ∈ openings (some σ) fs, o.depth < σ.blocks.length + fs.countP Fragment.isOpen := by
  induction fs generalizing σ with
  | nil => simp
  | cons f fs ih =>
    intro o ho
    rw [openings, List.mem_append] at ho
    rw [List.countP_cons]
    rcases σ.step_cases f with ⟨hopen, hstep⟩ | ⟨header, -, hf, hopen, hstep⟩ |
      ⟨hopen, header, branch, hstep, -, -⟩
    · cases hτ : σ.leave with
      | none => simp [hopen, hstep, hτ] at ho
      | some τ =>
        have hlen := Context.length_leave_lt hτ
        have := ih o (by simpa [hopen, hstep, hτ] using ho)
        omega
    · rw [if_pos hf]
      rcases ho with ho | ho
      · obtain rfl : o = ⟨header, σ.blocks.length⟩ := by simpa [hopen] using ho
        show σ.blocks.length < _
        omega
      · have : o.depth < σ.blocks.length + 1 + _ := ih o (hstep ▸ ho)
        omega
    · have ho : o ∈ openings (some ⟨header, branch, σ.blocks⟩) fs := by
        simpa [hopen, hstep] using ho
      have hlt := ih o ho
      dsimp only at hlt
      omega

/-! ## The headers -/

/-- Every fragment that the context remembers satisfies `P`. -/
structure Context.All (P : Fragment → Prop) (σ : Context) : Prop where
  header : ∀ f ∈ σ.header, P f
  branch : ∀ f ∈ σ.branch, P f
  blocks : ∀ b ∈ σ.blocks, ∀ f ∈ b, P f

theorem Context.All.leave {P : Fragment → Prop} (h : σ.All P) (hτ : σ.leave = some τ) :
    τ.All P := by
  unfold Context.leave at hτ
  split at hτ
  · cases hτ
  · rename_i branch blocks hblocks
    obtain rfl := Option.some.inj hτ
    obtain ⟨hb, hbs⟩ := List.forall_mem_cons.mp (hblocks ▸ h.blocks)
    exact ⟨by simp, hb, hbs⟩

/-- What holds of all headers holds of those that open a block. -/
theorem Context.All.openings {P : Fragment → Prop} (h : σ.All P)
    (hfs : ∀ f ∈ fs, IsHeader f → P f) : ∀ o ∈ openings (some σ) fs, P o.header := by
  induction fs generalizing σ with
  | nil => simp
  | cons f fs ih =>
    obtain ⟨hf, hfs⟩ := List.forall_mem_cons.mp hfs
    intro o ho
    rw [Block.openings, List.mem_append] at ho
    rcases σ.step_cases f with ⟨hopen, hstep⟩ | ⟨header, hh, -, hopen, hstep⟩ |
      ⟨hopen, header, branch, hstep, hheader, hbranch⟩
    · cases hτ : σ.leave with
      | none => simp [hopen, hstep, hτ] at ho
      | some τ => exact ih (h.leave hτ) hfs o (by simpa [hopen, hstep, hτ] using ho)
    · rcases ho with ho | ho
      · obtain rfl : o = ⟨header, σ.blocks.length⟩ := by simpa [hopen] using ho
        exact h.header header hh
      · have hall : (Context.idle (σ.branch :: σ.blocks)).All P :=
          ⟨by simp [Context.idle], by simp [Context.idle],
            List.forall_mem_cons.mpr ⟨h.branch, h.blocks⟩⟩
        exact ih hall hfs o (hstep ▸ ho)
    · have hall : (⟨header, branch, σ.blocks⟩ : Context).All P := by
        refine ⟨fun g hg => ?_, fun g hg => ?_, h.blocks⟩
        · rcases hheader g hg with hg | ⟨rfl, hg⟩
          · exact h.branch g hg
          · exact hf hg
        · obtain ⟨rfl, hg⟩ := hbranch g hg
          exact hf hg
      exact ih hall hfs o (by simpa [hopen, hstep] using ho)

/-- A block is opened by one of the fragments, and that is a header. -/
theorem header_openings :
    ∀ o ∈ openings (some (.idle [])) fs, o.header ∈ fs ∧ IsHeader o.header := by
  have hidle : (Context.idle []).All fun f => f ∈ fs ∧ IsHeader f :=
    ⟨by simp [Context.idle], by simp [Context.idle], by simp [Context.idle]⟩
  exact hidle.openings fun f hf hh => ⟨hf, hh⟩

/-- The block of the loop lies inside that of the `else`. -/
example : (openings (some (.idle []))
    (tokenize "if (a) { b; } else { while (c) { d; } }".toList)).map (·.depth) = [0, 0, 1] := by
  decide +kernel

end Block

end Flowchart
