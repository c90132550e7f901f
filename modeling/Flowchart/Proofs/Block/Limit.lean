import Mathlib.Data.Nat.Find
import Flowchart.Chart
import Flowchart.Proofs.Block.Opening

/-!
# The limit of depth

* `Job.Fails`: the ways in which reading fails, one lemma for each place where a block is read.
* `Meets`: a job opens certain blocks, whatever the limit. It fails at the first of them that lies
  too deep, and gives the same nodes under every limit that none exceeds.
* `Job.Listed`: the blocks that a job opens are those that `openings` lists.
* `Program.ofFragments_limit`: so there is a least limit under which fragments make a program.
-/

namespace Flowchart

namespace Block

variable {limit depth : Nat} {f g : Fragment} {fs gs input mid rest : List Fragment}
  {ns ms ts us : List Node} {e : TooDeep} {job : Job}

/-! ## Failures -/

/-- Doing the job ends in a failure. -/
def Job.Fails (limit depth : Nat) (e : TooDeep) (job : Job) : Prop :=
  job.outcome limit depth = .error e

namespace Job.Fails

theorem block_iff :
    (Job.block input).Fails limit depth e ↔ Block.block limit depth input = .error e := by
  cases h : Block.block limit depth input <;> simp [Fails, Job.outcome, h, Except.map]

theorem statement_iff :
    (Job.statement f input).Fails limit depth e ↔
      Block.statement limit depth f input = .error e := by
  cases h : Block.statement limit depth f input <;> simp [Fails, Job.outcome, h, Except.map]

theorem body_iff :
    (Job.body f input).Fails limit depth e ↔ Block.body limit depth f input = .error e := by
  cases h : Block.body limit depth f input <;> simp [Fails, Job.outcome, h, Except.map]

theorem passOver (hc : f.isClose = false) (ho : f.isOpen = true)
    (h : (Job.block fs).Fails limit depth e) : (Job.block (f :: fs)).Fails limit depth e := by
  rw [block_iff] at h ⊢
  rw [Block.block, if_neg (by simp [hc]), if_pos ho, h]

theorem cons_head (hc : f.isClose = false) (ho : f.isOpen = false)
    (h : (Job.statement f fs).Fails limit depth e) : (Job.block (f :: fs)).Fails limit depth e := by
  rw [statement_iff] at h
  rw [block_iff, Block.block, if_neg (by simp [hc]), if_neg (by simp [ho]), h]

theorem cons_tail (hc : f.isClose = false) (ho : f.isOpen = false)
    (hs : Reads limit depth (.statement f fs) ns mid) (h : (Job.block mid).Fails limit depth e) :
    (Job.block (f :: fs)).Fails limit depth e := by
  obtain ⟨s, hread, hout⟩ := Job.outcome_statement_eq_ok.mp hs.outcome_eq
  obtain ⟨rfl, rfl⟩ := Prod.mk.inj hout
  rw [block_iff] at h ⊢
  simp only [Block.block, hc, ho, Bool.false_eq_true, ↓reduceIte, hread, h]

theorem branch (hr : Rule.of f input = .branch) (h : (Job.body f input).Fails limit depth e) :
    (Job.statement f input).Fails limit depth e := by
  rw [body_iff] at h
  rw [statement_iff, Block.statement.eq_def, hr]
  simp only [h]

theorem branchElse (hr : Rule.of f input = .branch)
    (ht : Reads limit depth (.body f input) ts (g :: gs)) (he : g.isElse = true)
    (h : (Job.body f gs).Fails limit depth e) : (Job.statement f input).Fails limit depth e := by
  obtain ⟨t, hread, hout⟩ := Job.outcome_body_eq_ok.mp ht.outcome_eq
  obtain ⟨rfl, hrest⟩ := Prod.mk.inj hout
  rw [body_iff] at h
  rw [statement_iff, Block.statement.eq_def, hr]
  simp only [hread]
  split
  · rename_i hnil
    rw [hrest] at hnil
    cases hnil
  · rename_i g' gs' hg
    rw [hrest] at hg
    obtain ⟨rfl, rfl⟩ := List.cons.inj hg
    rw [if_pos he]
    simp only [h]

theorem loop (hr : Rule.of f input = .loop) (h : (Job.body f input).Fails limit depth e) :
    (Job.statement f input).Fails limit depth e := by
  rw [body_iff] at h
  rw [statement_iff, Block.statement.eq_def, hr]
  simp only [h]

theorem opened (ho : g.isOpen = true) (hd : depth + 1 ≤ limit)
    (h : (Job.block fs).Fails limit (depth + 1) e) :
    (Job.body f (g :: fs)).Fails limit depth e := by
  rw [block_iff] at h
  rw [body_iff, Block.body, if_pos ho, if_neg (by omega), h]

/-- A block that lies too deep is the one cause of failure. -/
theorem tooDeep (ho : g.isOpen = true) (hd : limit ≤ depth) :
    (Job.body f (g :: fs)).Fails limit depth ⟨f.span, limit⟩ := by
  rw [body_iff, Block.body, if_pos ho, if_pos (by omega)]

end Job.Fails

/-! ## What a job opens -/

/-- The first block that lies too deep is among the first blocks, or none of them lies too deep. -/
theorem find?_append_cases {os os' : List Opening} {o : Opening}
    (h : (os ++ os').find? (limit ≤ ·.depth) = some o) :
    os.find? (limit ≤ ·.depth) = some o ∨
      (∀ o ∈ os, o.depth < limit) ∧ os'.find? (limit ≤ ·.depth) = some o := by
  rw [List.find?_append] at h
  cases hos : os.find? (limit ≤ ·.depth) with
  | some o' => exact .inl (by simpa [hos] using h)
  | none =>
    rw [List.find?_eq_none] at hos
    exact .inr ⟨by simpa using hos, by simpa [List.find?_eq_none.mpr hos] using h⟩

/-- The job opens the blocks `os`, whatever the limit is. Under a limit that none of them exceeds it
gives `ns` and leaves `rest`; else it fails at the first one that lies too deep. -/
structure Meets (depth : Nat) (job : Job) (os : List Opening) (ns : List Node)
    (rest : List Fragment) : Prop where
  reads : ∀ limit, (∀ o ∈ os, o.depth < limit) → Reads limit depth job ns rest
  fails : ∀ limit o, os.find? (limit ≤ ·.depth) = some o →
    job.Fails limit depth ⟨o.header.span, limit⟩

namespace Meets

variable {os os' : List Opening}

/-- A job that opens nothing. -/
theorem of_reads (h : ∀ limit, Reads limit depth job ns rest) : Meets depth job [] ns rest where
  reads limit _ := h limit
  fails limit o ho := by simp at ho

theorem passOver (hc : f.isClose = false) (ho : f.isOpen = true)
    (h : Meets depth (.block fs) os ns rest) : Meets depth (.block (f :: fs)) os ns rest where
  reads limit hos := .passOver hc ho (h.reads limit hos)
  fails limit o hfirst := .passOver hc ho (h.fails limit o hfirst)

theorem cons (hc : f.isClose = false) (ho : f.isOpen = false)
    (hs : Meets depth (.statement f fs) os ns mid) (hb : Meets depth (.block mid) os' ms rest) :
    Meets depth (.block (f :: fs)) (os ++ os') (ns ++ ms) rest where
  reads limit hos := by
    obtain ⟨hos, hos'⟩ := List.forall_mem_append.mp hos
    exact .cons hc ho (hs.reads limit hos) (hb.reads limit hos')
  fails limit o hfirst := by
    rcases find?_append_cases hfirst with h | ⟨hos, h⟩
    · exact .cons_head hc ho (hs.fails limit o h)
    · exact .cons_tail hc ho (hs.reads limit hos) (hb.fails limit o h)

theorem branch (hr : Rule.of f fs = .branch) (ht : Meets depth (.body f fs) os ts rest)
    (he : ∀ g ∈ rest.head?, g.isElse = false) :
    Meets depth (.statement f fs) os [.branch (Node.branchCondition f.text) ts []] rest where
  reads limit hos := .branch hr (ht.reads limit hos) he
  fails limit o hfirst := .branch hr (ht.fails limit o hfirst)

theorem branchElse (hr : Rule.of f fs = .branch) (ht : Meets depth (.body f fs) os ts (g :: gs))
    (he : g.isElse = true) (hu : Meets depth (.body f gs) os' us rest) :
    Meets depth (.statement f fs) (os ++ os') [.branch (Node.branchCondition f.text) ts us]
      rest where
  reads limit hos := by
    obtain ⟨hos, hos'⟩ := List.forall_mem_append.mp hos
    exact .branchElse hr (ht.reads limit hos) he (hu.reads limit hos')
  fails limit o hfirst := by
    rcases find?_append_cases hfirst with h | ⟨hos, h⟩
    · exact .branch hr (ht.fails limit o h)
    · exact .branchElse hr (ht.reads limit hos) he (hu.fails limit o h)

theorem loop (hr : Rule.of f fs = .loop) (hb : Meets depth (.body f fs) os ns rest) :
    Meets depth (.statement f fs) os [.loop (Node.loopCondition f.text) ns] rest where
  reads limit hos := .loop hr (hb.reads limit hos)
  fails limit o hfirst := .loop hr (hb.fails limit o hfirst)

theorem opened (ho : g.isOpen = true) (hb : Meets (depth + 1) (.block fs) os ns rest) :
    Meets depth (.body f (g :: fs)) (⟨f, depth⟩ :: os) ns rest where
  reads limit hos := by
    obtain ⟨hd, hos⟩ := List.forall_mem_cons.mp hos
    exact .opened ho hd (hb.reads limit hos)
  fails limit o hfirst := by
    by_cases hd : limit ≤ depth
    · obtain rfl : ⟨f, depth⟩ = o := by simpa [hd] using hfirst
      exact .tooDeep ho hd
    · exact .opened ho (by omega) (hb.fails limit o (by simpa [hd] using hfirst))

end Meets

/-! ## Passing over fragments -/

variable {σ τ υ : Context} {os os' : List Opening}

/-- The first of the fragments is not what is awaited. -/
def Context.Quiet (σ : Context) (fs : List Fragment) : Prop :=
  ∀ f ∈ fs.head?, (f.isOpen = true → σ.header = none) ∧ (f.isElse = true → σ.branch = none)

theorem Context.quiet_idle (blocks : List (Option Fragment)) (fs : List Fragment) :
    (Context.idle blocks).Quiet fs :=
  fun _ _ => ⟨fun _ => rfl, fun _ => rfl⟩

theorem Context.leave_congr (h : τ.blocks = σ.blocks) : τ.leave = σ.leave := by
  rw [leave, leave, h]

/-- What stands in `input` before `rest` opens the blocks `os`, leaves as many blocks as there were
and turns `σ` into `τ`. -/
structure Passes (σ : Context) (input : List Fragment) (os : List Opening) (τ : Context)
    (rest : List Fragment) : Prop where
  openings_eq : openings (some σ) input = os ++ openings (some τ) rest
  blocks_eq : τ.blocks = σ.blocks

namespace Passes

theorem refl : Passes σ input [] σ input := ⟨rfl, rfl⟩

theorem trans (h : Passes σ input os τ mid) (h' : Passes τ mid os' υ rest) :
    Passes σ input (os ++ os') υ rest where
  openings_eq := by rw [h.openings_eq, h'.openings_eq, List.append_assoc]
  blocks_eq := h'.blocks_eq.trans h.blocks_eq

theorem single (ho : f.isOpen = false) (hstep : σ.step f = some τ) (hτ : τ.blocks = σ.blocks) :
    Passes σ (f :: fs) [] τ fs where
  openings_eq := by simp [openings, Context.opening?, ho, hstep]
  blocks_eq := hτ

/-- A fragment that is neither a brace nor the `else` of an `if`. -/
theorem await (ho : f.isOpen = false) (hc : f.isClose = false)
    (he : f.isElse = true → σ.branch = none) (hτ : σ.await f = τ) (hblocks : τ.blocks = σ.blocks) :
    Passes σ (f :: fs) [] τ fs := by
  refine .single ho ?_ hblocks
  rw [Context.step, if_neg (by simp [hc]), if_neg (by simp [ho]), if_neg (by simpa using he), hτ]

theorem branch (hr : Rule.of f [] = .branch) (ho : f.isOpen = false) (hc : f.isClose = false)
    (he : f.isElse = true → σ.branch = none) :
    Passes σ (f :: fs) [] ⟨some f, some f, σ.blocks⟩ fs :=
  .await ho hc he (by rw [Context.await, hr]) rfl

theorem loop (hr : Rule.of f [] = .loop) (ho : f.isOpen = false) (hc : f.isClose = false)
    (he : f.isElse = true → σ.branch = none) :
    Passes σ (f :: fs) [] ⟨some f, none, σ.blocks⟩ fs :=
  .await ho hc he (by rw [Context.await, hr]) rfl

theorem plain (hf : IsPlain f) (he : f.isElse = true → σ.branch = none) :
    Passes σ (f :: fs) [] (.idle σ.blocks) fs := by
  refine .await hf.not_open hf.not_close he ?_ rfl
  unfold Context.await
  split
  · exact absurd ‹_› hf.not_branch
  · exact absurd ‹_› hf.not_loop
  · rfl

theorem plains {blocks : List (Option Fragment)} (hfs : ∀ f ∈ fs, IsPlain f) :
    Passes (.idle blocks) (fs ++ rest) [] (.idle blocks) rest := by
  induction fs with
  | nil => exact .refl
  | cons f fs ih =>
    obtain ⟨hf, hfs⟩ := List.forall_mem_cons.mp hfs
    exact (plain hf fun _ => rfl).trans (ih hfs)

/-- An `else` that belongs to an `if`. -/
theorem otherwise (he : g.isElse = true) (hσ : σ.branch = some f) :
    Passes σ (g :: gs) [] ⟨some f, none, σ.blocks⟩ gs := by
  obtain ⟨ho, hc⟩ := not_brace_of_isElse he
  refine .single ho ?_ rfl
  rw [Context.step, if_neg (by simp [hc]), if_neg (by simp [ho]), if_pos (by simp [he, hσ]), hσ]

end Passes

theorem openings_close (hc : f.isClose = true) :
    openings (some σ) (f :: fs) = openings σ.leave fs := by
  have ho : f.isOpen = false := by
    by_contra h
    rw [Bool.not_eq_false] at h
    simp [isClose_of_isOpen h] at hc
  simp [openings, Context.opening?, ho, Context.step, hc]

/-- An opening brace that no header awaits. -/
theorem openings_passOver (ho : f.isOpen = true) (hσ : σ.header = none) :
    openings (some σ) (f :: fs) = openings (some (.idle σ.blocks)) fs := by
  simp [openings, Context.opening?, ho, hσ, Context.step, isClose_of_isOpen ho]

/-- An opening brace that a header awaits. -/
theorem openings_opened (ho : g.isOpen = true) (hσ : σ.header = some f) :
    openings (some σ) (g :: gs) =
      ⟨f, σ.blocks.length⟩ :: openings (some (.idle (σ.branch :: σ.blocks))) gs := by
  simp [openings, Context.opening?, ho, hσ, Context.step, isClose_of_isOpen ho]

/-! ## What a job opens is listed -/

/-- What a job opens is what `openings` lists for the fragments that it takes. -/
def Job.Listed : Job → Prop
  | .block input => ∀ σ : Context, σ.Quiet input → ∃ os ns rest, rest.length ≤ input.length ∧
      openings (some σ) input = os ++ openings σ.leave rest ∧
      Meets σ.blocks.length (.block input) os ns rest
  | .statement f input => f.isOpen = false → f.isClose = false →
      ∀ σ : Context, σ.Quiet (f :: input) → ∃ os τ ns rest, rest.length ≤ input.length ∧
        Passes σ (f :: input) os τ rest ∧ τ.Quiet rest ∧
        Meets σ.blocks.length (.statement f input) os ns rest
  | .body f input => ∀ σ : Context, σ.header = some f → ∃ os τ ns rest,
      rest.length ≤ input.length ∧ Passes σ input os τ rest ∧ τ.branch = σ.branch ∧
        (∀ g ∈ rest.head?, g.isOpen = true → τ.header = none) ∧
        Meets σ.blocks.length (.body f input) os ns rest

section Statement

/-- A statement and fragments after it that are no headers. -/
theorem Job.listed_plains (hf : IsPlain f) (hfs : ∀ g ∈ fs, IsPlain g) (hinput : input = fs ++ rest)
    (h : ∀ limit depth, Reads limit depth (.statement f input) ns rest) :
    (Job.statement f input).Listed := by
  subst hinput
  intro _ _ σ hσ
  refine ⟨[], .idle σ.blocks, ns, rest, by simp, ?_, Context.quiet_idle _ _,
    .of_reads fun limit => h limit _⟩
  exact (Passes.plain hf (hσ f rfl).2).trans (.plains hfs)

theorem Job.listed_plain (hb : Rule.of f input ≠ .branch) (hl : Rule.of f input ≠ .loop)
    (h : ∀ limit depth, Reads limit depth (.statement f input) ns input) :
    (Job.statement f input).Listed := by
  intro ho hc
  rw [Ne, of_eq_branch_iff] at hb
  rw [Ne, of_eq_loop_iff] at hl
  have hnone : ∀ g ∈ ([] : List Fragment), IsPlain g := by simp
  exact Job.listed_plains ⟨ho, hc, hb, hl⟩ hnone rfl h ho hc

/-- An output call with those right after it. -/
theorem Job.listed_output (hr : Rule.of f input = .output) : (Job.statement f input).Listed := by
  have hf := isPlain_of_isOutput (isOutput_of_output hr)
  exact Job.listed_plains hf (fun g hg => isPlain_of_mem_outputs hg)
    List.takeWhile_append_dropWhile.symm fun _ _ => .output hr

theorem Job.listed_unopened (ho : ∀ g ∈ input.head?, g.isOpen = false) :
    (Job.body f input).Listed := by
  intro σ _
  refine ⟨[], σ, [], input, Nat.le_refl _, .refl, rfl, fun g hg hopen => ?_,
    .of_reads fun _ => .unopened ho⟩
  simp [ho g hg] at hopen

end Statement

/-- Blocks of at most `size` fragments are listed. -/
def ListedUpTo (size : Nat) : Prop :=
  ∀ input : List Fragment, input.length ≤ size → (Job.block input).Listed

section Nested

variable {size : Nat}

theorem ListedUpTo.body (hblocks : ListedUpTo size) (hsize : input.length ≤ size + 1) :
    (Job.body f input).Listed := by
  intro σ hσ
  cases input with
  | nil => exact Job.listed_unopened (by simp) σ hσ
  | cons g gs =>
    by_cases ho : g.isOpen = true
    · obtain ⟨os, ns, rest, hlen, hos, hmeets⟩ := hblocks gs (Nat.le_of_succ_le_succ hsize)
        (.idle (σ.branch :: σ.blocks)) (Context.quiet_idle _ _)
      refine ⟨⟨f, σ.blocks.length⟩ :: os, ⟨none, σ.branch, σ.blocks⟩, ns, rest,
        Nat.le_succ_of_le hlen, ⟨?_, rfl⟩, rfl, fun _ _ _ => rfl, .opened ho hmeets⟩
      rw [openings_opened ho hσ, hos]
      rfl
    · exact Job.listed_unopened (by simpa using ho) σ hσ

/-- An `if`, and its `else` where one follows. -/
theorem ListedUpTo.branch (hblocks : ListedUpTo size) (hsize : input.length ≤ size + 1)
    (hr : Rule.of f input = .branch) :
    (Job.statement f input).Listed := by
  intro ho hc σ hσ
  have hheader : Passes σ (f :: input) [] ⟨some f, some f, σ.blocks⟩ input :=
    .branch (of_eq_branch_iff.mp hr) ho hc (hσ f rfl).2
  obtain ⟨os, τ, ts, rest, hlen, hpass, hτ, hquiet, hmeets⟩ :=
    hblocks.body hsize ⟨some f, some f, σ.blocks⟩ rfl
  have hpass := hheader.trans hpass
  by_cases he : ∀ g ∈ rest.head?, g.isElse = false
  · refine ⟨os, τ, _, rest, hlen, hpass, fun g hg => ⟨hquiet g hg, ?_⟩, .branch hr hmeets he⟩
    simp [he g hg]
  · cases rest with
    | nil => simp at he
    | cons g gs =>
      have he : g.isElse = true := by simpa using he
      have helse : Passes τ (g :: gs) [] ⟨some f, none, τ.blocks⟩ gs := .otherwise he hτ
      have hlen : gs.length + 1 ≤ input.length := hlen
      obtain ⟨os', υ, us, rest, hlen', hpass', hυ, hquiet', hmeets'⟩ :=
        hblocks.body (show gs.length ≤ size + 1 by omega) ⟨some f, none, τ.blocks⟩ rfl
      have hmeets' : Meets σ.blocks.length (.body f gs) os' us rest := by
        rwa [← congrArg List.length hpass.blocks_eq]
      exact ⟨os ++ os', υ, _, rest, by omega, hpass.trans (helse.trans hpass'),
        fun g hg => ⟨hquiet' g hg, fun _ => hυ⟩, .branchElse hr hmeets he hmeets'⟩

theorem ListedUpTo.loop (hblocks : ListedUpTo size) (hsize : input.length ≤ size + 1)
    (hr : Rule.of f input = .loop) :
    (Job.statement f input).Listed := by
  intro ho hc σ hσ
  have hheader : Passes σ (f :: input) [] ⟨some f, none, σ.blocks⟩ input :=
    .loop (of_eq_loop_iff.mp hr) ho hc (hσ f rfl).2
  obtain ⟨os, τ, ns, rest, hlen, hpass, hτ, hquiet, hmeets⟩ :=
    hblocks.body hsize ⟨some f, none, σ.blocks⟩ rfl
  exact ⟨os, τ, _, rest, hlen, hheader.trans hpass,
    fun g hg => ⟨hquiet g hg, fun _ => hτ⟩, .loop hr hmeets⟩

theorem ListedUpTo.statement (hblocks : ListedUpTo size) (hsize : input.length ≤ size + 1) :
    (Job.statement f input).Listed := by
  cases hr : Rule.of f input with
  | branch => exact hblocks.branch hsize hr
  | loop => exact hblocks.loop hsize hr
  | output => exact Job.listed_output hr
  | promptedInput =>
    obtain ⟨g, gs, rfl⟩ := exists_cons_of_promptedInput hr
    obtain ⟨hf, hg⟩ := of_promptedInput hr
    have hgs : ∀ g' ∈ [g], IsPlain g' := by simpa using isPlain_of_isInput hg
    exact Job.listed_plains (isPlain_of_isOutput hf) hgs rfl fun _ _ => .promptedInput hr
  | declaration =>
    exact Job.listed_plain (by simp [hr]) (by simp [hr]) fun _ _ => .declaration hr
  | input => exact Job.listed_plain (by simp [hr]) (by simp [hr]) fun _ _ => .input hr
  | stop => exact Job.listed_plain (by simp [hr]) (by simp [hr]) fun _ _ => .stop hr
  | process => exact Job.listed_plain (by simp [hr]) (by simp [hr]) fun _ _ => .process hr

end Nested

theorem listedUpTo (size : Nat) : ListedUpTo size := by
  induction size with
  | zero =>
    intro input hsize σ _
    obtain rfl := List.length_eq_zero_iff.mp (Nat.le_zero.mp hsize)
    exact ⟨[], [], [], Nat.le_refl _, by simp, .of_reads fun _ => .nil⟩
  | succ size ih =>
    intro input hsize σ hσ
    cases input with
    | nil => exact ⟨[], [], [], Nat.le_refl _, by simp, .of_reads fun _ => .nil⟩
    | cons f fs =>
      have hfs : fs.length ≤ size := Nat.le_of_succ_le_succ hsize
      by_cases hc : f.isClose = true
      · exact ⟨[], [], fs, Nat.le_succ _, openings_close hc, .of_reads fun _ => .close hc⟩
      rw [Bool.not_eq_true] at hc
      by_cases ho : f.isOpen = true
      · obtain ⟨os, ns, rest, hlen, hos, hmeets⟩ :=
          ih fs hfs (.idle σ.blocks) (Context.quiet_idle _ _)
        refine ⟨os, ns, rest, Nat.le_succ_of_le hlen, ?_, .passOver hc ho hmeets⟩
        rw [openings_passOver ho ((hσ f rfl).1 ho), hos, Context.leave_congr]
        rfl
      · rw [Bool.not_eq_true] at ho
        obtain ⟨os, τ, ns, mid, hlen, hpass, hτ, hmeets⟩ :=
          ih.statement (by omega) ho hc σ hσ
        obtain ⟨os', ms, rest, hlen', hos', hmeets'⟩ := ih mid (by omega) τ hτ
        refine ⟨os ++ os', ns ++ ms, rest, by simp; omega, ?_, .cons hc ho hmeets ?_⟩
        · rw [hpass.openings_eq, hos', Context.leave_congr hpass.blocks_eq, List.append_assoc]
        · rwa [hpass.blocks_eq] at hmeets'

/-- The outermost block opens what `openings` lists for the fragments. -/
theorem meets_openings (fs : List Fragment) :
    ∃ ns rest, Meets 0 (.block fs) (openings (some (.idle [])) fs) ns rest := by
  obtain ⟨os, ns, rest, -, hos, hmeets⟩ :=
    listedUpTo fs.length fs (Nat.le_refl _) (.idle []) (Context.quiet_idle _ _)
  have hall : openings (some (.idle [])) fs = os := by
    rw [hos, Context.leave, Context.idle, openings_none, List.append_nil]
  exact ⟨ns, rest, hall ▸ hmeets⟩

end Block

open Block

namespace Block.Meets

variable {fs rest : List Fragment} {os : List Opening} {ns : List Node} {limit : Nat}

theorem ofFragments_eq_ok (h : Meets 0 (.block fs) os ns rest) (hos : ∀ o ∈ os, o.depth < limit) :
    Program.ofFragments limit fs = .ok (.ofNodes ns) := by
  rw [Program.ofFragments, reads_block_iff.mpr (h.reads limit hos)]
  rfl

theorem ofFragments_eq_error (h : Meets 0 (.block fs) os ns rest) {o : Opening}
    (ho : os.find? (limit ≤ ·.depth) = some o) :
    Program.ofFragments limit fs = .error ⟨o.header.span, limit⟩ := by
  rw [Program.ofFragments, Block.read, Job.Fails.block_iff.mp (h.fails limit o ho)]
  rfl

end Block.Meets

/-- **The limit of depth.** There is a least limit, never more than there are opening braces, under
which fragments make a program. The lower limits are the numbers of blocks that some block has
around it. Every limit from the least one on gives the same program, and every lower one a single
finding, at the header of the first block that has as many blocks around it as the limit allows. -/
theorem Program.ofFragments_limit (fs : List Fragment) :
    ∃ least p, least ≤ fs.countP Fragment.isOpen ∧ ∀ limit,
      (limit < least ↔ ∃ o ∈ openings (some (.idle [])) fs, o.depth = limit) ∧
      (least ≤ limit → Program.ofFragments limit fs = .ok p) ∧
      (limit < least → ∃ o e,
        (openings (some (.idle [])) fs).find? (·.depth = limit) = some o ∧
        o.header ∈ fs ∧ IsHeader o.header ∧ Program.ofFragments limit fs = .error e ∧
        e.diagnostic.finding.map Finding.code = some "E100" ∧
        e.diagnostic.labels.map Label.span = [o.header.span] ∧
        ∀ config source, config.maxDepth = limit → tokenize source = fs →
          Chart.parse config source = .error (.source [e.diagnostic] source)) := by
  obtain ⟨ns, rest, hmeets⟩ := meets_openings fs
  set os := openings (some (.idle [])) fs with hos
  have hbound : ∀ o ∈ os, o.depth < fs.countP Fragment.isOpen := fun o ho => by
    simpa [Context.idle] using depth_openings_lt o ho
  have hlimit : ∃ limit, ∀ o ∈ os, o.depth < limit := ⟨_, hbound⟩
  have hfirst {limit : Nat} (hlt : limit < Nat.find hlimit) :
      ∃ o, os.find? (limit ≤ ·.depth) = some o := by
    rw [← Option.isSome_iff_exists, List.find?_isSome]
    simpa using Nat.find_min hlimit hlt
  have hdepth (limit : Nat) : os.find? (limit ≤ ·.depth) = os.find? (·.depth = limit) :=
    find?_openings_depth (Nat.zero_le limit)
  refine ⟨Nat.find hlimit, .ofNodes ns, Nat.find_min' hlimit hbound, fun limit =>
    ⟨⟨fun hlt => ?_, ?_⟩, fun hle => ?_, fun hlt => ?_⟩⟩
  · obtain ⟨o, ho⟩ := hfirst hlt
    rw [hdepth] at ho
    exact ⟨o, List.mem_of_find?_eq_some ho, by simpa using List.find?_some ho⟩
  · rintro ⟨o, ho, rfl⟩
    exact Nat.find_spec hlimit o ho
  · exact hmeets.ofFragments_eq_ok fun o ho => (Nat.find_spec hlimit o ho).trans_le hle
  · obtain ⟨o, ho⟩ := hfirst hlt
    obtain ⟨hmem, hheader⟩ := header_openings o (List.mem_of_find?_eq_some ho)
    have herror := hmeets.ofFragments_eq_error ho
    rw [hdepth] at ho
    refine ⟨o, _, ho, hmem, hheader, herror, rfl, rfl, ?_⟩
    rintro config source rfl rfl
    rw [Chart.parse, Program.ofSource, herror]
    rfl

end Flowchart
