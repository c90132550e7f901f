import Flowchart.Block

/-!
# The relation of reading

`Reads limit depth job nodes rest`: doing the job gives the nodes and leaves the fragments `rest`.
It has one case for each way in which a block, a statement or a body is read, so a proof about
readings that succeed is an induction on it.

* `reads_block_iff`: the relation holds of a block if and only if `Block.read` gives the same.
-/

namespace Flowchart

namespace Block

variable {limit depth : Nat} {f g : Fragment} {fs input rest : List Fragment} {ns : List Node}

/-! ## Outcomes without the bound on the rest -/

/-- The nodes of a reading and the fragments left. -/
def Reading.outcome (r : Reading input) : List Node × List Fragment := (r.nodes, r.rest)

/-- What is there to read. -/
inductive Job where
  /-- A block. -/
  | block (input : List Fragment)
  /-- What belongs to a fragment that is no brace, from the fragments after it. -/
  | statement (f : Fragment) (input : List Fragment)
  /-- The block that a header opens, if it opens one. -/
  | body (header : Fragment) (input : List Fragment)

/-- What doing a job gives and leaves. -/
def Job.outcome (limit depth : Nat) : Job → Except TooDeep (List Node × List Fragment)
  | .block input => (Block.block limit depth input).map Reading.outcome
  | .statement f input => (Block.statement limit depth f input).map Reading.outcome
  | .body header input => (Block.body limit depth header input).map Reading.outcome

/-- Doing the job at `depth` gives `nodes` and leaves `rest`. -/
inductive Reads (limit : Nat) : Nat → Job → List Node → List Fragment → Prop where
  | nil {depth : Nat} : Reads limit depth (.block []) [] []
  | close {depth : Nat} {f : Fragment} {fs : List Fragment} (hf : f.isClose = true) :
      Reads limit depth (.block (f :: fs)) [] fs
  /-- A brace that no header controls. -/
  | passOver {depth : Nat} {f : Fragment} {fs rest : List Fragment} {ns : List Node}
      (hc : f.isClose = false) (ho : f.isOpen = true) (h : Reads limit depth (.block fs) ns rest) :
      Reads limit depth (.block (f :: fs)) ns rest
  | cons {depth : Nat} {f : Fragment} {fs mid rest : List Fragment} {ns ms : List Node}
      (hc : f.isClose = false) (ho : f.isOpen = false)
      (hs : Reads limit depth (.statement f fs) ns mid)
      (hb : Reads limit depth (.block mid) ms rest) :
      Reads limit depth (.block (f :: fs)) (ns ++ ms) rest
  | declaration {depth : Nat} {f : Fragment} {fs : List Fragment}
      (hr : Rule.of f fs = .declaration) : Reads limit depth (.statement f fs) [] fs
  | branch {depth : Nat} {f : Fragment} {fs rest : List Fragment} {ts : List Node}
      (hr : Rule.of f fs = .branch) (ht : Reads limit depth (.body f fs) ts rest)
      (he : ∀ g ∈ rest.head?, g.isElse = false) :
      Reads limit depth (.statement f fs) [.branch (Node.branchCondition f.text) ts []] rest
  | branchElse {depth : Nat} {f g : Fragment} {fs gs rest : List Fragment} {ts us : List Node}
      (hr : Rule.of f fs = .branch) (ht : Reads limit depth (.body f fs) ts (g :: gs))
      (he : g.isElse = true) (hu : Reads limit depth (.body f gs) us rest) :
      Reads limit depth (.statement f fs) [.branch (Node.branchCondition f.text) ts us] rest
  | loop {depth : Nat} {f : Fragment} {fs rest : List Fragment} {ns : List Node}
      (hr : Rule.of f fs = .loop) (hb : Reads limit depth (.body f fs) ns rest) :
      Reads limit depth (.statement f fs) [.loop (Node.loopCondition f.text) ns] rest
  | promptedInput {depth : Nat} {f g : Fragment} {fs : List Fragment}
      (hr : Rule.of f (g :: fs) = .promptedInput) :
      Reads limit depth (.statement f (g :: fs)) [.ofInput g.text] fs
  | output {depth : Nat} {f : Fragment} {fs : List Fragment} (hr : Rule.of f fs = .output) :
      Reads limit depth (.statement f fs)
        (Node.ofOutputs (f :: fs.takeWhile (Statement.isOutput ·.text)))
        (fs.dropWhile (Statement.isOutput ·.text))
  | input {depth : Nat} {f : Fragment} {fs : List Fragment} (hr : Rule.of f fs = .input) :
      Reads limit depth (.statement f fs) [.ofInput f.text] fs
  | stop {depth : Nat} {f : Fragment} {fs : List Fragment} (hr : Rule.of f fs = .stop) :
      Reads limit depth (.statement f fs) [.stop] fs
  | process {depth : Nat} {f : Fragment} {fs : List Fragment} (hr : Rule.of f fs = .process) :
      Reads limit depth (.statement f fs) [.ofProcess f.text] fs
  | opened {depth : Nat} {f g : Fragment} {fs rest : List Fragment} {ns : List Node}
      (ho : g.isOpen = true) (hd : depth + 1 ≤ limit)
      (hb : Reads limit (depth + 1) (.block fs) ns rest) :
      Reads limit depth (.body f (g :: fs)) ns rest
  | unopened {depth : Nat} {f : Fragment} {fs : List Fragment}
      (ho : ∀ g ∈ fs.head?, g.isOpen = false) : Reads limit depth (.body f fs) [] fs

/-! ## The relation and the readers agree -/

/-- An input call is asked for only where there is one. -/
theorem exists_cons_of_promptedInput (h : Rule.of f fs = .promptedInput) :
    ∃ g gs, fs = g :: gs := by
  cases fs with
  | nil =>
    unfold Rule.of at h
    grind
  | cons g gs => exact ⟨g, gs, rfl⟩

/-- A run of output calls makes one node or none. -/
theorem ofOutputs_eq (run : List Fragment) :
    Node.ofOutputs run = [] ∨ ∃ label, Node.ofOutputs run = [.step .io label] := by
  unfold Node.ofOutputs
  grind

theorem Job.outcome_block_eq_ok {r : List Node × List Fragment} :
    (Job.block input).outcome limit depth = .ok r ↔
      ∃ s, Block.block limit depth input = .ok s ∧ s.outcome = r := by
  cases h : Block.block limit depth input <;> simp [Job.outcome, h, Except.map]

theorem Job.outcome_statement_eq_ok {r : List Node × List Fragment} :
    (Job.statement f input).outcome limit depth = .ok r ↔
      ∃ s, Block.statement limit depth f input = .ok s ∧ s.outcome = r := by
  cases h : Block.statement limit depth f input <;> simp [Job.outcome, h, Except.map]

theorem Job.outcome_body_eq_ok {r : List Node × List Fragment} :
    (Job.body f input).outcome limit depth = .ok r ↔
      ∃ s, Block.body limit depth f input = .ok s ∧ s.outcome = r := by
  cases h : Block.body limit depth f input <;> simp [Job.outcome, h, Except.map]

/-- An `if` that no `else` follows. -/
theorem Job.outcome_branch (hr : Rule.of f input = .branch) {t : Reading input}
    (ht : Block.body limit depth f input = .ok t) (he : ∀ g ∈ t.rest.head?, g.isElse = false) :
    (Job.statement f input).outcome limit depth =
      .ok ([.branch (Node.branchCondition f.text) t.nodes []], t.rest) := by
  refine Job.outcome_statement_eq_ok.mpr ⟨t.withNodes [.branch _ t.nodes []], ?_, rfl⟩
  rw [Block.statement.eq_def, hr]
  simp only [ht]
  split
  · rfl
  · rename_i g gs hg
    rw [if_neg]
    simp [he g (by simp [hg])]

/-- An `if` with the block of its `else`. -/
theorem Job.outcome_branchElse {gs : List Fragment} (hr : Rule.of f input = .branch)
    {t : Reading input} (ht : Block.body limit depth f input = .ok t) (hrest : t.rest = g :: gs)
    (he : g.isElse = true) {u : Reading gs} (hu : Block.body limit depth f gs = .ok u) :
    (Job.statement f input).outcome limit depth =
      .ok ([.branch (Node.branchCondition f.text) t.nodes u.nodes], u.rest) := by
  rw [Job.outcome, Block.statement.eq_def, hr]
  simp only [ht]
  split
  · rename_i hnil
    rw [hrest] at hnil
    cases hnil
  · rename_i g' gs' hg
    rw [hrest] at hg
    obtain ⟨rfl, rfl⟩ := List.cons.inj hg
    rw [if_pos he]
    simp [hu, Except.map, Reading.outcome]

/-- What the relation says is what the readers give. -/
theorem Reads.outcome_eq {job : Job} (h : Reads limit depth job ns rest) :
    job.outcome limit depth = .ok (ns, rest) := by
  induction h with
  | nil =>
    rw [Job.outcome, Block.block]
    rfl
  | close hf =>
    rw [Job.outcome, Block.block, if_pos hf]
    rfl
  | passOver hc ho _ ih =>
    obtain ⟨r, hr, hout⟩ := Job.outcome_block_eq_ok.mp ih
    rw [Job.outcome, Block.block, if_neg (by simp [hc]), if_pos ho, hr]
    simpa [Except.map, Reading.outcome, Reading.skip] using hout
  | cons hc ho _ _ ihs ihb =>
    obtain ⟨s, hs, hout⟩ := Job.outcome_statement_eq_ok.mp ihs
    obtain ⟨rfl, rfl⟩ := Prod.mk.inj hout
    obtain ⟨r, hr, hout⟩ := Job.outcome_block_eq_ok.mp ihb
    obtain ⟨rfl, rfl⟩ := Prod.mk.inj hout
    rw [Job.outcome, Block.block, if_neg (by simp [hc]), if_neg (by simp [ho]), hs]
    simp [hr, Except.map, Reading.outcome, Reading.skip, Reading.append]
  | declaration hr =>
    rw [Job.outcome, Block.statement.eq_def, hr]
    rfl
  | branch hr _ he ih =>
    obtain ⟨t, ht, hout⟩ := Job.outcome_body_eq_ok.mp ih
    obtain ⟨rfl, rfl⟩ := Prod.mk.inj hout
    exact Job.outcome_branch hr ht he
  | branchElse hr _ he _ iht ihu =>
    obtain ⟨t, ht, hout⟩ := Job.outcome_body_eq_ok.mp iht
    obtain ⟨rfl, hrest⟩ := Prod.mk.inj hout
    obtain ⟨u, hu, hout⟩ := Job.outcome_body_eq_ok.mp ihu
    obtain ⟨rfl, rfl⟩ := Prod.mk.inj hout
    exact Job.outcome_branchElse hr ht hrest he hu
  | loop hr _ ih =>
    obtain ⟨t, ht, hout⟩ := Job.outcome_body_eq_ok.mp ih
    obtain ⟨rfl, rfl⟩ := Prod.mk.inj hout
    rw [Job.outcome, Block.statement.eq_def, hr]
    simp [ht, Except.map, Reading.outcome, Reading.withNodes]
  | promptedInput hr | output hr | input hr | stop hr | process hr =>
    rw [Job.outcome, Block.statement.eq_def, hr]
    rfl
  | opened ho hd _ ih =>
    obtain ⟨r, hr, hout⟩ := Job.outcome_block_eq_ok.mp ih
    obtain ⟨rfl, rfl⟩ := Prod.mk.inj hout
    rw [Job.outcome, Block.body, if_pos ho, if_neg (by omega), hr]
    rfl
  | @unopened _ f fs ho =>
    cases fs with
    | nil =>
      rw [Job.outcome, Block.body]
      rfl
    | cons g gs =>
      have hg : g.isOpen = false := ho g rfl
      rw [Job.outcome, Block.body, if_neg (by simp [hg])]
      rfl

/-- Blocks of at most `size` fragments that are read are read by the relation. -/
def ReadsUpTo (limit size : Nat) : Prop :=
  ∀ {depth : Nat} {input : List Fragment} {r : Reading input}, input.length ≤ size →
    Block.block limit depth input = .ok r → Reads limit depth (.block input) r.nodes r.rest

section Sound

variable {size : Nat}

theorem ReadsUpTo.body (hblocks : ReadsUpTo limit size) (hsize : input.length ≤ size + 1)
    {r : Reading input} (h : Block.body limit depth f input = .ok r) :
    Reads limit depth (.body f input) r.nodes r.rest := by
  cases input with
  | nil =>
    rw [Block.body] at h
    obtain rfl := Except.ok.inj h
    exact .unopened (by simp)
  | cons g gs =>
    rw [Block.body] at h
    by_cases ho : g.isOpen = true
    · rw [if_pos ho] at h
      by_cases hd : limit < depth + 1
      · rw [if_pos hd] at h
        cases h
      · rw [if_neg hd] at h
        cases hb : Block.block limit (depth + 1) gs with
        | error e => simp [hb] at h
        | ok s =>
          simp only [hb, Except.ok.injEq] at h
          subst h
          exact .opened ho (by omega) (hblocks (Nat.le_of_succ_le_succ hsize) hb)
    · rw [if_neg ho] at h
      obtain rfl := Except.ok.inj h
      exact .unopened (by simpa using ho)

theorem ReadsUpTo.branch (hblocks : ReadsUpTo limit size) (hsize : input.length ≤ size + 1)
    (hr : Rule.of f input = .branch) {r : Reading input}
    (h : Block.statement limit depth f input = .ok r) :
    Reads limit depth (.statement f input) r.nodes r.rest := by
  rw [Block.statement.eq_def] at h
  simp only [hr] at h
  cases ht : Block.body limit depth f input with
  | error e => simp [ht] at h
  | ok t =>
    have hbody := hblocks.body hsize ht
    simp only [ht] at h
    split at h
    · rename_i hnil
      obtain rfl := Except.ok.inj h
      have hnext : ∀ g ∈ t.rest.head?, g.isElse = false := by simp [hnil]
      exact .branch hr hbody hnext
    · rename_i g gs hcons
      by_cases he : g.isElse = true
      · rw [if_pos he] at h
        cases hu : Block.body limit depth f gs with
        | error e => simp [hu] at h
        | ok u =>
          simp only [hu, Except.ok.injEq] at h
          subst h
          have hle := t.length_rest_le
          rw [hcons, List.length_cons] at hle
          exact .branchElse hr (hcons ▸ hbody) he (hblocks.body (by omega) hu)
      · rw [if_neg he] at h
        obtain rfl := Except.ok.inj h
        have hnext : ∀ g ∈ t.rest.head?, g.isElse = false := by simpa [hcons] using he
        exact .branch hr hbody hnext

theorem ReadsUpTo.statement (hblocks : ReadsUpTo limit size) (hsize : input.length ≤ size + 1)
    {r : Reading input} (h : Block.statement limit depth f input = .ok r) :
    Reads limit depth (.statement f input) r.nodes r.rest := by
  cases hr : Rule.of f input with
  | branch => exact hblocks.branch hsize hr h
  | declaration =>
    simp only [Block.statement.eq_def, hr, Except.ok.injEq] at h
    subst h
    exact .declaration hr
  | loop =>
    simp only [Block.statement.eq_def, hr] at h
    cases ht : Block.body limit depth f input with
    | error e => simp [ht] at h
    | ok t =>
      simp only [ht, Except.ok.injEq] at h
      subst h
      exact .loop hr (hblocks.body hsize ht)
  | promptedInput =>
    obtain ⟨g, gs, rfl⟩ := exists_cons_of_promptedInput hr
    simp only [Block.statement.eq_def, hr, Except.ok.injEq] at h
    subst h
    exact .promptedInput hr
  | output =>
    simp only [Block.statement.eq_def, hr, Except.ok.injEq] at h
    subst h
    exact .output hr
  | input =>
    simp only [Block.statement.eq_def, hr, Except.ok.injEq] at h
    subst h
    exact .input hr
  | stop =>
    simp only [Block.statement.eq_def, hr, Except.ok.injEq] at h
    subst h
    exact .stop hr
  | process =>
    simp only [Block.statement.eq_def, hr, Except.ok.injEq] at h
    subst h
    exact .process hr

end Sound

theorem readsUpTo (limit size : Nat) : ReadsUpTo limit size := by
  induction size with
  | zero =>
    intro depth input r hsize h
    obtain rfl := List.length_eq_zero_iff.mp (Nat.le_zero.mp hsize)
    rw [Block.block] at h
    obtain rfl := Except.ok.inj h
    exact .nil
  | succ size ih =>
    intro depth input r hsize h
    cases input with
    | nil =>
      rw [Block.block] at h
      obtain rfl := Except.ok.inj h
      exact .nil
    | cons f fs =>
      have hfs : fs.length ≤ size := Nat.le_of_succ_le_succ hsize
      rw [Block.block] at h
      by_cases hc : f.isClose = true
      · rw [if_pos hc] at h
        obtain rfl := Except.ok.inj h
        exact .close hc
      · rw [if_neg hc] at h
        rw [Bool.not_eq_true] at hc
        by_cases ho : f.isOpen = true
        · rw [if_pos ho] at h
          cases hb : Block.block limit depth fs with
          | error e => simp [hb] at h
          | ok s =>
            simp only [hb, Except.ok.injEq] at h
            subst h
            exact .passOver hc ho (ih hfs hb)
        · rw [if_neg ho] at h
          rw [Bool.not_eq_true] at ho
          cases hs : Block.statement limit depth f fs with
          | error e => simp [hs] at h
          | ok s =>
            simp only [hs] at h
            cases hb : Block.block limit depth s.rest with
            | error e => simp [hb] at h
            | ok t =>
              simp only [hb, Except.ok.injEq] at h
              subst h
              have hle := s.length_rest_le
              exact .cons hc ho (ih.statement (by omega) hs) (ih (by omega) hb)

/-- A block is read if and only if the relation says so. -/
theorem reads_block_iff :
    Block.read limit depth fs = .ok (ns, rest) ↔ Reads limit depth (.block fs) ns rest := by
  constructor
  · intro h
    obtain ⟨r, hr, hout⟩ := Job.outcome_block_eq_ok.mp h
    obtain ⟨rfl, rfl⟩ := Prod.mk.inj hout
    exact readsUpTo limit fs.length (Nat.le_refl _) hr
  · exact Reads.outcome_eq

end Block

end Flowchart
