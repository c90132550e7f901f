import Mathlib.Data.List.TakeWhile
import Flowchart.Proofs.Block.Braces
import Flowchart.Proofs.Block.Reads

/-!
# Where reading stops

`readFrom_stop`: where reading stops early, the closing brace it stops at has a partner before it if
and only if an opening brace before it has no header.

* `Control`: what a sequence of fragments waits for, by its headers. There is no such state after
  an opening brace without a header.
* `Settles`: fragments leave the blocks as they were and no brace open, as long as `Control` follows
  them; else they leave a brace open. `settled_of_reads`: what reading takes settles.
-/

namespace Flowchart

namespace Block

variable {limit depth : Nat} {f o c : Fragment} {fs rest : List Fragment} {ns : List Node}

/-! ## Headers -/

theorem not_brace_of_isElse (h : f.isElse = true) : f.isOpen = false ∧ f.isClose = false := by
  have ht : f.text = "else".toList := by simpa [Fragment.isElse] using h
  rw [Fragment.isOpen, Fragment.isClose, ht]
  decide

/-- Whether a fragment is a header does not depend on what comes after it. -/
theorem of_eq_branch_iff : Rule.of f fs = .branch ↔ Rule.of f [] = .branch := by
  unfold Rule.of
  grind

theorem of_eq_loop_iff : Rule.of f fs = .loop ↔ Rule.of f [] = .loop := by
  unfold Rule.of
  grind

theorem head?_of_startsWithKeyword {keyword : String} {text : List Char}
    (h : Statement.startsWithKeyword keyword text = true) {k : Char} {ks : List Char}
    (hk : keyword.toList = k :: ks) : text.head? = some k := by
  unfold Statement.startsWithKeyword Text.startsWith at h
  rw [hk, Bool.and_eq_true] at h
  obtain ⟨t, rfl⟩ := List.isPrefixOf_iff_prefix.mp h.1
  rfl

/-- The fragment is neither a brace nor the header of a block. -/
structure IsPlain (f : Fragment) : Prop where
  not_open : f.isOpen = false
  not_close : f.isClose = false
  not_branch : Rule.of f [] ≠ .branch
  not_loop : Rule.of f [] ≠ .loop

theorem startsWithKeyword_of_branch (h : Rule.of f fs = .branch) :
    Statement.startsWithKeyword "if" f.text = true := by
  unfold Rule.of at h
  grind

theorem startsWithKeyword_of_loop (h : Rule.of f fs = .loop) :
    Statement.startsWithKeyword "while" f.text = true ∨
      Statement.startsWithKeyword "for" f.text = true := by
  unfold Rule.of at h
  grind

theorem isOutput_of_output (h : Rule.of f fs = .output) : Statement.isOutput f.text = true := by
  unfold Rule.of at h
  grind

theorem of_promptedInput (h : Rule.of f (o :: fs) = .promptedInput) :
    Statement.isOutput f.text = true ∧ Statement.isInput o.text = true := by
  unfold Rule.of at h
  grind

theorem isPlain_of_head? {k : Char} (hk : f.text.head? = some k)
    (hne : k ∉ ['{', '}', 'i', 'w', 'f']) : IsPlain f := by
  have hother {d : Char} (hd : d ∈ ['{', '}', 'i', 'w', 'f']) : f.text.head? ≠ some d := by
    rintro h
    obtain rfl : k = d := Option.some.inj (hk.symm.trans h)
    exact hne hd
  refine ⟨?_, ?_, fun h => ?_, fun h => ?_⟩
  · refine beq_eq_false_iff_ne.mpr fun h => hother (d := '{') (by simp) ?_
    rw [h, List.head?_cons]
  · refine beq_eq_false_iff_ne.mpr fun h => hother (d := '}') (by simp) ?_
    rw [h, List.head?_cons]
  · refine hother (d := 'i') (by simp) ?_
    exact head?_of_startsWithKeyword (startsWithKeyword_of_branch h) rfl
  · rcases startsWithKeyword_of_loop h with h | h
    · exact hother (d := 'w') (by simp) (head?_of_startsWithKeyword h rfl)
    · exact hother (d := 'f') (by simp) (head?_of_startsWithKeyword h rfl)

theorem isPlain_of_isOutput (h : Statement.isOutput f.text = true) : IsPlain f := by
  have hp : f.text.head? = some 'p' := head?_of_startsWithKeyword h rfl
  exact isPlain_of_head? hp (by decide)

theorem isPlain_of_mem_outputs (hf : f ∈ fs.takeWhile (Statement.isOutput ·.text)) : IsPlain f := by
  have hout : Statement.isOutput f.text = true := by simpa using List.mem_takeWhile_imp hf
  exact isPlain_of_isOutput hout

theorem isPlain_of_isInput (h : Statement.isInput f.text = true) : IsPlain f := by
  have hs : f.text.head? = some 's' := head?_of_startsWithKeyword h rfl
  exact isPlain_of_head? hs (by decide)

/-- What fragments wait for, where every opening brace so far has had a header. -/
structure Control where
  /-- An opening brace here opens the block of a header. -/
  awaitsBlock : Bool
  /-- An `else` here belongs to an `if`. -/
  awaitsElse : Bool
  /-- The blocks under way, innermost first: whether an `else` may follow the block. -/
  blocks : List Bool
deriving DecidableEq

namespace Control

/-- Nothing is awaited and no block is under way. -/
def initial : Control := ⟨false, false, []⟩

/-- What is awaited after the fragment; none if it is an opening brace without a header. -/
def step (σ : Control) (f : Fragment) : Option Control :=
  if f.isClose then some ⟨false, σ.blocks.headD false, σ.blocks.tail⟩
  else if f.isOpen then
    if σ.awaitsBlock then some ⟨false, false, σ.awaitsElse :: σ.blocks⟩ else none
  else if f.isElse && σ.awaitsElse then some ⟨true, false, σ.blocks⟩
  else some
    ⟨Rule.of f [] = .branch || Rule.of f [] = .loop, Rule.of f [] = .branch, σ.blocks⟩

/-- What is awaited after all of the fragments. -/
def follow (σ : Control) : List Fragment → Option Control
  | [] => some σ
  | f :: fs => (σ.step f).bind (follow · fs)

/-- The first of the fragments is not what is awaited. -/
def Quiet (σ : Control) (fs : List Fragment) : Prop :=
  ∀ f ∈ fs.head?, (f.isOpen = true → σ.awaitsBlock = false) ∧
    (f.isElse = true → σ.awaitsElse = false)

variable {σ : Control}

/-- Nothing is awaited. -/
def Idle (σ : Control) : Prop := σ.awaitsBlock = false ∧ σ.awaitsElse = false

theorem Idle.quiet (h : σ.Idle) (fs : List Fragment) : σ.Quiet fs :=
  fun _ _ => ⟨fun _ => h.1, fun _ => h.2⟩

theorem idle_initial : initial.Idle := ⟨rfl, rfl⟩

@[simp] theorem follow_nil (σ : Control) : σ.follow [] = some σ := rfl

theorem follow_append (σ : Control) (as bs : List Fragment) :
    σ.follow (as ++ bs) = (σ.follow as).bind (follow · bs) := by
  induction as generalizing σ with
  | nil => rfl
  | cons a as ih =>
    cases h : σ.step a with
    | none => simp [follow, h]
    | some τ => simp [follow, h, ih]

theorem step_close (hc : c.isClose = true) :
    σ.step c = some ⟨false, σ.blocks.headD false, σ.blocks.tail⟩ := by
  rw [step, if_pos hc]

theorem step_open (ho : o.isOpen = true) (h : σ.awaitsBlock = true) :
    σ.step o = some ⟨false, false, σ.awaitsElse :: σ.blocks⟩ := by
  rw [step, if_neg (by simp [isClose_of_isOpen ho]), if_pos ho, if_pos h]

theorem step_plain (ho : f.isOpen = false) (hc : f.isClose = false)
    (h : f.isElse = true → σ.awaitsElse = false) :
    σ.step f = some
      ⟨Rule.of f [] = .branch || Rule.of f [] = .loop, Rule.of f [] = .branch, σ.blocks⟩ := by
  rw [step, if_neg (by simp [hc]), if_neg (by simp [ho]), if_neg (by simpa using h)]

theorem step_else (he : f.isElse = true) (h : σ.awaitsElse = true) :
    σ.step f = some ⟨true, false, σ.blocks⟩ := by
  obtain ⟨ho, hc⟩ := not_brace_of_isElse he
  rw [step, if_neg (by simp [hc]), if_neg (by simp [ho]), if_pos (by simp [he, h])]

theorem step_eq_none_iff : σ.step f = none ↔ f.isOpen = true ∧ σ.awaitsBlock = false := by
  unfold step
  constructor
  · grind
  · rintro ⟨ho, h⟩
    rw [if_neg (by simp [isClose_of_isOpen ho]), if_pos ho, if_neg (by simp [h])]

end Control

/-! ## What reading takes -/

/-- The fragments `taken` leave no brace open and the blocks as they were, and then `after` holds;
but if one of their opening braces has no header, they leave a brace open. -/
def Settles (σ : Control) (taken : List Fragment) (after : Control → Prop) : Prop :=
  match σ.follow taken with
  | none => ∀ n, n < unclosed n taken
  | some τ => (∀ n, unclosed n taken = n) ∧ τ.blocks = σ.blocks ∧ after τ

namespace Settles

variable {σ : Control} {as bs : List Fragment} {P Q : Control → Prop}

theorem nil (h : P σ) : Settles σ [] P := ⟨fun _ => rfl, rfl, h⟩

theorem le (h : Settles σ as P) (n : Nat) : n ≤ unclosed n as := by
  unfold Settles at h
  split at h
  · exact Nat.le_of_lt (h n)
  · exact Nat.le_of_eq (h.1 n).symm

theorem append (h : Settles σ as P) (hnext : ∀ τ, τ.blocks = σ.blocks → P τ → Settles τ bs Q)
    (hle : ∀ n, n ≤ unclosed n bs) : Settles σ (as ++ bs) Q := by
  unfold Settles at h ⊢
  rw [Control.follow_append]
  cases hf : σ.follow as with
  | none =>
    simp only [hf, Option.bind_none, unclosed_append] at h ⊢
    exact fun n => Nat.lt_of_lt_of_le (h n) (hle _)
  | some τ =>
    simp only [hf, Option.bind_some, unclosed_append] at h ⊢
    obtain ⟨hn, hblocks, hP⟩ := h
    have hτ := hnext τ hblocks hP
    unfold Settles at hτ
    split at hτ
    · simpa [hn] using hτ
    · simpa [hn, hblocks] using hτ

theorem mono (h : Settles σ as P) (hPQ : ∀ τ, P τ → Q τ) : Settles σ as Q := by
  unfold Settles at h ⊢
  split at h
  · exact h
  · exact ⟨h.1, h.2.1, hPQ _ h.2.2⟩

theorem single {τ : Control} (hstep : σ.step f = some τ) (ho : f.isOpen = false)
    (hc : f.isClose = false) (hblocks : τ.blocks = σ.blocks) (h : P τ) : Settles σ [f] P := by
  unfold Settles
  simp only [Control.follow, hstep, Option.bind_some]
  exact ⟨fun n => by rw [unclosed_cons_plain ho hc, unclosed_nil], hblocks, h⟩

/-- After a fragment that is no header nothing is awaited. -/
theorem plain (hf : IsPlain f) (he : f.isElse = true → σ.awaitsElse = false) :
    Settles σ [f] Control.Idle := by
  refine single (Control.step_plain hf.not_open hf.not_close he) hf.not_open hf.not_close rfl ?_
  simp [Control.Idle, hf.not_branch, hf.not_loop]

theorem plains (hfs : ∀ f ∈ fs, IsPlain f) (hσ : σ.Idle) :
    Settles σ fs Control.Idle := by
  induction fs generalizing σ with
  | nil => exact nil hσ
  | cons f fs ih =>
    obtain ⟨hf, hfs⟩ := List.forall_mem_cons.mp hfs
    have hrest (τ : Control) (hτ : τ.Idle) : Settles τ fs Control.Idle := ih hfs hτ
    have hle := (hrest .initial Control.idle_initial).le
    exact (plain hf fun _ => hσ.2).append (fun τ _ => hrest τ) hle

end Settles

/-- What is known of a job that leaves `rest`, unless it ran out of fragments. -/
def Job.Settled (rest : List Fragment) : Job → Prop
  | .block input => ∃ taken c, input = taken ++ c :: rest ∧ c.isClose = true ∧
      ∀ σ : Control, σ.Quiet input → Settles σ taken fun _ => True
  | .statement f input => f.isOpen = false → f.isClose = false → ∃ taken, input = taken ++ rest ∧
      ∀ σ : Control, σ.Quiet (f :: input) → Settles σ (f :: taken) (·.Quiet rest)
  | .body _ input => ∃ taken, input = taken ++ rest ∧
      ∀ σ : Control, σ.awaitsBlock = true → Settles σ taken fun τ => τ.awaitsElse = σ.awaitsElse ∧
        ∀ g ∈ rest.head?, g.isOpen = true → τ.awaitsBlock = false

section Statement

variable {input : List Fragment}

theorem Job.settled_plain (hb : Rule.of f input ≠ .branch) (hl : Rule.of f input ≠ .loop) :
    (Job.statement f input).Settled input := by
  intro ho hc
  rw [Ne, of_eq_branch_iff] at hb
  rw [Ne, of_eq_loop_iff] at hl
  refine ⟨[], rfl, fun σ hσ => ?_⟩
  exact (Settles.plain ⟨ho, hc, hb, hl⟩ (hσ f rfl).2).mono fun τ hτ => hτ.quiet _

/-- A statement and fragments after it that are no headers. -/
theorem Job.settled_plains (hf : IsPlain f) (hfs : ∀ g ∈ fs, IsPlain g) :
    (Job.statement f (fs ++ rest)).Settled rest := by
  intro _ _
  refine ⟨fs, rfl, fun σ hσ => ?_⟩
  have hrest (τ : Control) (hτ : τ.Idle) : Settles τ fs Control.Idle := .plains hfs hτ
  have hall : Settles σ (f :: fs) Control.Idle := (Settles.plain hf (hσ f rfl).2).append
    (fun τ _ => hrest τ) (hrest .initial Control.idle_initial).le
  exact hall.mono fun τ hτ => hτ.quiet _

/-- A header and what is read of its body. -/
theorem Settles.header {σ : Control} {taken : List Fragment} (ho : f.isOpen = false)
    (hc : f.isClose = false) (hh : Rule.of f [] = .branch ∨ Rule.of f [] = .loop)
    (hσ : f.isElse = true → σ.awaitsElse = false) {after : Control → Prop}
    (hbody : ∀ τ : Control, τ.awaitsBlock = true → τ.awaitsElse = decide (Rule.of f [] = .branch) →
      Settles τ taken after) : Settles σ (f :: taken) after := by
  have hone : Settles σ [f] fun τ =>
      τ.awaitsBlock = true ∧ τ.awaitsElse = decide (Rule.of f [] = .branch) := by
    refine .single (Control.step_plain ho hc hσ) ho hc rfl ⟨?_, rfl⟩
    simpa using hh
  exact hone.append (fun τ _ hτ => hbody τ hτ.1 hτ.2)
    (hbody ⟨true, decide (Rule.of f [] = .branch), []⟩ rfl rfl).le

/-- An `else` that belongs to an `if`, and what is read of its body. -/
theorem Settles.otherwise {σ : Control} {taken : List Fragment} (he : f.isElse = true)
    (hσ : σ.awaitsElse = true) {after : Control → Prop}
    (hbody : ∀ τ : Control, τ.awaitsBlock = true → τ.awaitsElse = false → Settles τ taken after) :
    Settles σ (f :: taken) after := by
  obtain ⟨ho, hc⟩ := not_brace_of_isElse he
  have hone : Settles σ [f] fun τ => τ.awaitsBlock = true ∧ τ.awaitsElse = false :=
    .single (Control.step_else he hσ) ho hc rfl ⟨rfl, rfl⟩
  exact hone.append (fun τ _ hτ => hbody τ hτ.1 hτ.2) (hbody ⟨true, false, []⟩ rfl rfl).le

/-- An opening brace that no header controls stays open, even if its block does not. -/
theorem Settles.passOver {σ : Control} {taken : List Fragment} {after : Control → Prop}
    (ho : o.isOpen = true) (hσ : σ.awaitsBlock = false) (hle : ∀ n, n ≤ unclosed n taken) :
    Settles σ (o :: taken) after := by
  have hnone : σ.step o = none := Control.step_eq_none_iff.mpr ⟨ho, hσ⟩
  unfold Settles
  simp only [Control.follow, hnone, Option.bind_none, unclosed_cons_open ho]
  intro n
  have := hle (n + 1)
  omega

/-- A block that a header awaits, with its braces. -/
theorem Settles.enclosed {σ : Control} {taken : List Fragment} {after : Control → Prop}
    (ho : o.isOpen = true) (hc : c.isClose = true) (hσ : σ.awaitsBlock = true)
    (h : Settles ⟨false, false, σ.awaitsElse :: σ.blocks⟩ taken after) :
    Settles σ (o :: (taken ++ [c])) (· = ⟨false, σ.awaitsElse, σ.blocks⟩) := by
  unfold Settles at h ⊢
  simp only [Control.follow, Control.step_open ho hσ, Option.bind_some, Control.follow_append,
    unclosed_cons_open ho, unclosed_append, unclosed_cons_close hc, unclosed_nil]
  split at h <;> rename_i hfollow
  · simp only [hfollow, Option.bind_none]
    intro n
    have := h (n + 1)
    omega
  · simp only [hfollow, Option.bind_some, Control.step_close hc, h.2.1, List.headD_cons,
      List.tail_cons, h.1, Nat.add_sub_cancel, implies_true, and_self]

/-- An output call with those right after it. -/
theorem Job.settled_output (hr : Rule.of f input = .output) :
    (Job.statement f input).Settled (input.dropWhile (Statement.isOutput ·.text)) := by
  have hrun : ∀ g ∈ input.takeWhile (Statement.isOutput ·.text), IsPlain g :=
    fun g hg => isPlain_of_mem_outputs hg
  have hf := isPlain_of_isOutput (isOutput_of_output hr)
  have hall : (Job.statement f (input.takeWhile (Statement.isOutput ·.text) ++
      input.dropWhile (Statement.isOutput ·.text))).Settled _ := Job.settled_plains hf hrun
  rwa [List.takeWhile_append_dropWhile] at hall

/-- An `if` with both of its blocks. The `else` between them is awaited, since the first block
leaves what the header awaits. -/
theorem Job.settled_branchElse {g : Fragment} {gs : List Fragment} (hr : Rule.of f input = .branch)
    (he : g.isElse = true) (ht : (Job.body f input).Settled (g :: gs))
    (hu : (Job.body f gs).Settled rest) : (Job.statement f input).Settled rest := by
  intro ho hc
  obtain ⟨taken, rfl, hset⟩ := ht
  obtain ⟨taken', rfl, hset'⟩ := hu
  have hrule := of_eq_branch_iff.mp hr
  have helse (τ : Control) (hτ : τ.awaitsElse = true) :
      Settles τ (g :: taken') (·.Quiet rest) := by
    refine .otherwise he hτ fun υ hb hυ => (hset' υ hb).mono fun υ' hυ' g hg => ?_
    exact ⟨hυ'.2 g hg, fun _ => hυ'.1.trans hυ⟩
  refine ⟨taken ++ g :: taken', by simp, fun σ hσ => ?_⟩
  refine .header ho hc (.inl hrule) (hσ f rfl).2 fun τ hτ hte => ?_
  refine (hset τ hτ).append (fun υ _ hυ => helse υ ?_) (helse ⟨true, true, []⟩ rfl).le
  rw [hυ.1, hte, decide_eq_true hrule]

end Statement

/-- What reading takes settles, if it stops before the end. -/
theorem settled_of_reads {job : Job} (h : Reads limit depth job ns rest) (hrest : rest ≠ []) :
    job.Settled rest := by
  induction h with
  | nil => exact absurd rfl hrest
  | @close _ f fs hf => exact ⟨[], f, rfl, hf, fun σ _ => .nil trivial⟩
  | @passOver _ f fs rest ns hc ho _ ih =>
    obtain ⟨taken, c, rfl, hcl, hset⟩ := ih hrest
    refine ⟨f :: taken, c, rfl, hcl, fun σ hσ => ?_⟩
    exact .passOver ho ((hσ f rfl).1 ho) (hset .initial (Control.idle_initial.quiet _)).le
  | @cons _ f fs mid rest ns ms hc ho hs hb ihs ihb =>
    obtain ⟨taken', c, rfl, hcl, hset'⟩ := ihb hrest
    obtain ⟨taken, rfl, hset⟩ := ihs (by simp) ho hc
    refine ⟨f :: taken ++ taken', c, by simp, hcl, fun σ hσ => ?_⟩
    exact (hset σ hσ).append (fun τ _ => hset' τ)
      (hset' .initial (Control.idle_initial.quiet _)).le
  | declaration hr => exact Job.settled_plain (by simp [hr]) (by simp [hr])
  | @branch _ f fs rest ts hr ht he ih =>
    intro ho hc
    obtain ⟨taken, rfl, hset⟩ := ih hrest
    have hrule := of_eq_branch_iff.mp hr
    refine ⟨taken, rfl, fun σ hσ => .header ho hc (.inl hrule) (hσ f rfl).2 fun τ hτ _ => ?_⟩
    refine (hset τ hτ).mono fun υ hυ g hg => ⟨hυ.2 g hg, fun h => ?_⟩
    exact absurd h (by simp [he g hg])
  | branchElse hr _ he _ iht ihu =>
    exact Job.settled_branchElse hr he (iht (List.cons_ne_nil _ _)) (ihu hrest)
  | @loop _ f fs rest ns hr _ ih =>
    intro ho hc
    obtain ⟨taken, rfl, hset⟩ := ih hrest
    have hrule := of_eq_loop_iff.mp hr
    refine ⟨taken, rfl, fun σ hσ => .header ho hc (.inr hrule) (hσ f rfl).2 fun τ hτ hte => ?_⟩
    refine (hset τ hτ).mono fun υ hυ g hg => ⟨hυ.2 g hg, fun _ => ?_⟩
    rw [hυ.1, hte, hrule]
    rfl
  | @promptedInput _ f g fs hr =>
    obtain ⟨hf, hg⟩ := of_promptedInput hr
    have hgs : ∀ g' ∈ [g], IsPlain g' := by simpa using isPlain_of_isInput hg
    exact Job.settled_plains (isPlain_of_isOutput hf) hgs
  | output hr => exact Job.settled_output hr
  | input hr => exact Job.settled_plain (by simp [hr]) (by simp [hr])
  | stop hr => exact Job.settled_plain (by simp [hr]) (by simp [hr])
  | process hr => exact Job.settled_plain (by simp [hr]) (by simp [hr])
  | @opened _ f g fs rest ns ho hd _ ih =>
    obtain ⟨taken, c, rfl, hcl, hset⟩ := ih hrest
    refine ⟨g :: (taken ++ [c]), by simp, fun σ hσ => ?_⟩
    have hin := hset ⟨false, false, σ.awaitsElse :: σ.blocks⟩ (Control.Idle.quiet ⟨rfl, rfl⟩ _)
    refine (Settles.enclosed ho hcl hσ hin).mono ?_
    rintro τ rfl
    exact ⟨rfl, fun _ _ _ => rfl⟩
  | @unopened _ f fs ho =>
    exact ⟨[], rfl, fun σ _ => .nil ⟨rfl, fun g hg hopen => absurd hopen (by simp [ho g hg])⟩⟩

/-! ## Early stops -/

/-- One of the opening braces has no header. -/
def HasHeaderless (fs : List Fragment) : Prop :=
  ∃ outer o inner σ, fs = outer ++ o :: inner ∧ o.isOpen = true ∧
    Control.initial.follow outer = some σ ∧ σ.awaitsBlock = false

theorem Control.follow_eq_none_iff {σ : Control} : σ.follow fs = none ↔
    ∃ outer o inner τ, fs = outer ++ o :: inner ∧ o.isOpen = true ∧
      σ.follow outer = some τ ∧ τ.awaitsBlock = false := by
  constructor
  · intro h
    induction fs generalizing σ with
    | nil => simp at h
    | cons f fs ih =>
      cases hstep : σ.step f with
      | none =>
        obtain ⟨ho, hσ⟩ := step_eq_none_iff.mp hstep
        exact ⟨[], f, fs, σ, rfl, ho, rfl, hσ⟩
      | some υ =>
        simp only [follow, hstep, Option.bind_some] at h
        obtain ⟨outer, o, inner, τ, rfl, ho, hτ, hb⟩ := ih h
        exact ⟨f :: outer, o, inner, τ, rfl, ho, by simp [follow, hstep, hτ], hb⟩
  · rintro ⟨outer, o, inner, τ, rfl, ho, hτ, hb⟩
    simp [follow_append, hτ, follow, step_eq_none_iff.mpr ⟨ho, hb⟩]

theorem readFrom_zero_eq_ok {next : Nat} :
    Block.readFrom limit depth 0 fs = .ok (ns, next) ↔
      ∃ rest, Reads limit depth (.block fs) ns rest ∧ next = fs.length - rest.length := by
  unfold readFrom
  rw [List.drop_zero]
  constructor
  · intro h
    cases hr : Block.read limit depth fs with
    | error e => simp [hr, Except.map] at h
    | ok r =>
      obtain ⟨nodes, rest⟩ := r
      simp only [hr, Except.map, Except.ok.injEq, Prod.mk.injEq, Nat.zero_max] at h
      obtain ⟨rfl, rfl⟩ := h
      exact ⟨rest, reads_block_iff.mp hr, rfl⟩
  · rintro ⟨rest, hr, rfl⟩
    rw [reads_block_iff.mpr hr]
    simp [Except.map]

/-- **Early stops.** Where reading stops before the end, it has just passed a closing brace. That
brace has a partner before it if and only if an opening brace before it has no header. So a balanced
sequence in which every opening brace has a header is read to its end. -/
theorem readFrom_stop {next : Nat} (h : Block.readFrom limit 0 0 fs = .ok (ns, next)) :
    (next < fs.length → ∃ before c after, fs = before ++ c :: after ∧
      next = before.length + 1 ∧ c.isClose = true ∧ (HasMatch before ↔ HasHeaderless before)) ∧
    (Balanced fs → ¬HasHeaderless fs → next = fs.length) := by
  obtain ⟨rest, hr, rfl⟩ := readFrom_zero_eq_ok.mp h
  have hstop (hrest : rest ≠ []) : ∃ before c, fs = before ++ c :: rest ∧ c.isClose = true ∧
      (HasMatch before ↔ HasHeaderless before) := by
    obtain ⟨before, c, heq, hc, hset⟩ := settled_of_reads hr hrest
    have hset := hset .initial (Control.idle_initial.quiet _)
    refine ⟨before, c, heq, hc, ?_⟩
    rw [← unclosed_pos_iff, HasHeaderless, ← Control.follow_eq_none_iff]
    unfold Settles at hset
    split at hset <;> rename_i hfollow
    · simpa [hfollow] using hset 0
    · simp [hfollow, hset.1]
  refine ⟨fun hlt => ?_, fun hbal hno => ?_⟩
  · have hrest : rest ≠ [] := by
      rintro rfl
      simp at hlt
    obtain ⟨before, c, rfl, hc, hiff⟩ := hstop hrest
    exact ⟨before, c, rest, rfl, by simp; omega, hc, hiff⟩
  · by_cases hrest : rest = []
    · simp [hrest]
    · obtain ⟨before, c, heq, hc, hiff⟩ := hstop hrest
      obtain ⟨outer, o, inner, σ, rfl, ho, hσ, hb⟩ := hiff.mp (hbal.hasMatch heq hc)
      exact absurd ⟨outer, o, inner ++ c :: rest, σ, by simpa using heq, ho, hσ, hb⟩ hno

/-- The brace that ends nothing is where reading stops: `if (x) { a; } } b;`. -/
theorem readFrom_stop_unmatched :
    let before : List Fragment := [⟨"if (x)".toList, .between 0 6⟩, ⟨['{'], .between 7 8⟩,
      ⟨"a;".toList, .between 9 11⟩, ⟨['}'], .between 12 13⟩]
    let fs := before ++ [⟨['}'], .between 14 15⟩, ⟨"b;".toList, .between 16 18⟩]
    Block.readFrom 64 0 0 fs = .ok ([.branch "x" [.step .process "a"] []], 5) ∧ 5 < fs.length ∧
      ¬HasMatch before := by
  intro before fs
  have hbody : Reads 64 0 (.body before[0] fs.tail) [.step .process "a"] (fs.drop 4) :=
    .opened rfl (by decide) (.cons rfl rfl (.process (by decide +kernel)) (.close rfl))
  have hcondition : Node.branchCondition before[0].text = "x" := by decide +kernel
  have hreads : Reads 64 0 (.block fs) [.branch "x" [.step .process "a"] []] (fs.drop 5) :=
    hcondition ▸ .cons rfl rfl (.branch rfl hbody (by decide)) (.close rfl)
  have hread : Block.readFrom 64 0 0 fs = .ok ([.branch "x" [.step .process "a"] []], 5) :=
    readFrom_zero_eq_ok.mpr ⟨_, hreads, rfl⟩
  refine ⟨hread, by decide, ?_⟩
  obtain ⟨before', c, after, heq, hlen, -, hiff⟩ := (readFrom_stop hread).1 (by decide)
  have hbefore : before' = before := by
    have htake : before' = fs.take 4 := by
      rw [heq, List.take_left' (by omega)]
    exact htake
  rw [← hbefore, hiff, HasHeaderless, ← Control.follow_eq_none_iff, hbefore]
  decide

/-- A brace without a header ends the reading where it closes, though it has a partner:
`{ a; } b;`. -/
theorem readFrom_stop_group :
    let fs : List Fragment := [⟨['{'], .between 0 1⟩, ⟨"a;".toList, .between 1 3⟩,
      ⟨['}'], .between 3 4⟩, ⟨"b;".toList, .between 4 6⟩]
    Block.readFrom 64 0 0 fs = .ok ([.step .process "a"], 3) ∧ Balanced fs ∧
      HasMatch (fs.take 2) := by
  intro fs
  have hreads : Reads 64 0 (.block fs) [.step .process "a"] (fs.drop 3) :=
    .passOver rfl rfl (.cons rfl rfl (.process (by decide +kernel)) (.close rfl))
  have hinner : Balanced [fs[1]] := .cons rfl rfl .nil
  have hbalanced : Balanced (fs[0] :: ([fs[1]] ++ fs[2] :: [fs[3]])) :=
    .nest rfl rfl hinner (.cons rfl rfl .nil)
  exact ⟨readFrom_zero_eq_ok.mpr ⟨_, hreads, rfl⟩, hbalanced, [], fs[0], [fs[1]], rfl, rfl, hinner⟩

end Block

end Flowchart
