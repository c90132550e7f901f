import Flowchart.Proofs.Block.Limit
import Flowchart.Proofs.Block.Origin

/-!
# Reading by index

Blocks are read here from the whole sequence of fragments and an index into it, in steps that are
counted. Nothing in the definitions keeps an index inside the sequence or says that the steps are
enough: a fragment that is not there and a lack of steps are faults.

* `Rule.firstAt`: the rule of a fragment, looked up in the table of rules. `From.firstAt_eq`: it is
  the rule that `Rule.of` gives.
* `applyAt` does what a rule says at an index; blocks are read by the reader that it is given.
  `readAt` reads a block.
* `Agrees`: a reader gives what reading the list from its index on gives. `Agrees.applyAt_eq`: then
  so does each rule; by induction on the steps, `readAt_eq`: so does `readAt`.
* `readAt_eq_readFrom`: with one step for each fragment that is left, and one more, reading by index
  gives what `readFrom` gives.
-/

namespace Flowchart

/-! ## The table of rules -/

namespace Rule

open Statement

/-- The text of the fragment at index `i`, none where no fragment is. -/
def textAt (fs : List Fragment) (i : Nat) : List Char := (fs[i]?.map (·.text)).getD []

/-- The rule applies at index `i`. -/
def appliesAt (fs : List Fragment) (i : Nat) : Rule → Bool
  | .declaration => isDeclaration (textAt fs i)
  | .branch => startsWithKeyword "if" (textAt fs i)
  | .loop => startsWithKeyword "while" (textAt fs i) || startsWithKeyword "for" (textAt fs i)
  | .promptedInput => isOutput (textAt fs i) && isInput (textAt fs (i + 1))
  | .output => isOutput (textAt fs i)
  | .input => isInput (textAt fs i)
  | .stop => containsKeyword "return" (textAt fs i)
  | .process => true

/-- The rules in the order in which they are tried. -/
def table : List Rule := [.declaration, .branch, .loop, .promptedInput, .output, .input, .stop]

/-- The first rule of the table that applies at index `i`; a statement that no rule claims is a
process. -/
def firstAt (fs : List Fragment) (i : Nat) : Rule := (table.find? (appliesAt fs i)).getD .process

end Rule

namespace Block

/-! ## Readers -/

/-- What stops a reading by index. -/
inductive Fault where
  | tooDeep (e : TooDeep)
  /-- A fragment is asked for that is not in the sequence. -/
  | outside (index : Nat)
  | outOfSteps
deriving DecidableEq, Repr

/-- What a reading by index gives: the nodes, and the index after what is read. -/
abbrev Located := Except Fault (List Node × Nat)

/-- The fragment at index `i`, where there has to be one. -/
def fragmentAt (fs : List Fragment) (i : Nat) : Except Fault Fragment :=
  match fs[i]? with
  | some f => .ok f
  | none => .error (.outside i)

/-- The fragments from index `i` up to index `j`, all of which have to be there. -/
def sliceAt (fs : List Fragment) (i j : Nat) : Except Fault (List Fragment) :=
  if i ≤ j ∧ j ≤ fs.length then .ok ((fs.take j).drop i) else .error (.outside j)

section Readers

variable (limit : Nat) (fs : List Fragment)

/-- Reads the block that `header` opens, if it begins at index `i`. A block at a given depth and
index is read by `nested`. -/
def bodyAt (nested : Nat → Nat → Located) (depth : Nat) (header : Fragment) (i : Nat) : Located :=
  if fs[i]?.any (·.isOpen) then
    if limit < depth + 1 then .error (.tooDeep ⟨header.span, limit⟩) else nested (depth + 1) (i + 1)
  else .ok ([], i)

/-- Does what the rule says at index `i`. -/
def applyAt (nested : Nat → Nat → Located) (depth i : Nat) : Rule → Located
  | .declaration => .ok ([], i + 1)
  | .branch => do
    let header ← fragmentAt fs i
    let (ts, next) ← bodyAt limit fs nested depth header (i + 1)
    let node := Node.branch (Node.branchCondition header.text) ts
    if fs[next]?.any (·.isElse) then
      let (us, next) ← bodyAt limit fs nested depth header (next + 1)
      .ok ([node us], next)
    else .ok ([node []], next)
  | .loop => do
    let header ← fragmentAt fs i
    let (ns, next) ← bodyAt limit fs nested depth header (i + 1)
    .ok ([.loop (Node.loopCondition header.text) ns], next)
  | .promptedInput => .ok ([.ofInput (Rule.textAt fs (i + 1))], i + 2)
  | .output => do
    let tail ← sliceAt fs i fs.length
    let offset? := tail.findIdx? fun f => !Statement.isOutput f.text
    let stop := (offset?.map (i + ·)).getD fs.length
    let run ← sliceAt fs i stop
    .ok (Node.ofOutputs run, stop)
  | .input => .ok ([.ofInput (Rule.textAt fs i)], i + 1)
  | .stop => .ok ([.stop], i + 1)
  | .process => .ok ([.ofProcess (Rule.textAt fs i)], i + 1)

/-- Reads the block that begins at index `i`, with so many steps left. -/
def readAt (steps depth i : Nat) : Located :=
  match steps with
  | 0 => .error .outOfSteps
  | steps + 1 =>
    match fs[i]? with
    | none => .ok ([], i)
    | some f =>
      if f.isClose then .ok ([], i + 1)
      else if f.isOpen then readAt steps depth (i + 1)
      else do
        let (ns, next) ← applyAt limit fs (readAt steps) depth i (Rule.firstAt fs i)
        let (ms, next) ← readAt steps depth next
        .ok (ns ++ ms, next)

end Readers

variable {limit depth i steps : Nat} {f g : Fragment} {fs input mid rest : List Fragment}
  {ns : List Node} {nested : Nat → Nat → Located}

/-! ## Indices and lists -/

namespace From

theorem getElem?_eq_head? (h : From fs i input) : fs[i]? = input.head? := by
  rw [← List.head?_drop, h.drop_eq]

theorem add_length (h : From fs i input) : i + input.length = fs.length := by
  have := h.le_length
  rw [← h.drop_eq, List.length_drop]
  omega

theorem le_of_suffix (h : From fs i input) (hs : rest <:+ input) : i ≤ fs.length - rest.length := by
  have := hs.length_le
  have := h.add_length
  omega

/-- Where the end of a part of the sequence begins. -/
theorem of_suffix (h : From fs i input) (hs : rest <:+ input) :
    From fs (fs.length - rest.length) rest where
  le_length := Nat.sub_le ..
  drop_eq := by
    obtain ⟨taken, rfl⟩ := hs
    have hfs : fs.take i ++ taken ++ rest = fs := by
      rw [List.append_assoc, ← h.drop_eq, List.take_append_drop]
    have hlength : (fs.take i ++ taken).length = fs.length - rest.length := by
      have := congrArg List.length hfs
      rw [List.length_append] at this
      omega
    calc fs.drop (fs.length - rest.length)
      _ = (fs.take i ++ taken ++ rest).drop (fs.take i ++ taken).length := by rw [hlength, hfs]
      _ = rest := List.drop_left

theorem textAt_eq (h : From fs i (f :: rest)) : Rule.textAt fs i = f.text := by
  rw [Rule.textAt, h.getElem?_eq]
  rfl

theorem firstAt_eq (h : From fs i (f :: rest)) : Rule.firstAt fs i = Rule.of f rest := by
  have hnext : Statement.isInput (Rule.textAt fs (i + 1)) =
      rest.head?.any (Statement.isInput ·.text) := by
    rw [Rule.textAt, h.succ.getElem?_eq_head?]
    cases rest with
    | nil => decide
    | cons g rest => rfl
  unfold Rule.firstAt Rule.table Rule.of
  simp only [List.find?_cons, List.find?_nil, Rule.appliesAt, h.textAt_eq, hnext]
  grind

end From

/-! ## What is left -/

/-- The fragments that a job may take. -/
def Job.fragments : Job → List Fragment
  | .block input | .statement _ input | .body _ input => input

/-- What is left is the end of what there was. -/
theorem Reads.suffix {job : Job} (h : Reads limit depth job ns rest) : rest <:+ job.fragments := by
  induction h with
  | nil => exact List.suffix_refl _
  | close => exact List.suffix_cons ..
  | passOver _ _ _ ih => exact ih.trans (List.suffix_cons ..)
  | cons _ _ _ _ ihs ihb => exact (ihb.trans ihs).trans (List.suffix_cons ..)
  | branchElse _ _ _ _ iht ihu => exact (ihu.trans (List.suffix_cons ..)).trans iht
  | branch _ _ _ ih | loop _ _ ih => exact ih
  | promptedInput => exact List.suffix_cons ..
  | output => exact List.dropWhile_suffix _
  | declaration | input | stop | process | unopened => exact List.suffix_refl _
  | opened _ _ _ ih => exact ih.trans (List.suffix_cons ..)

theorem Job.reads_of_outcome {job : Job} (h : job.outcome limit depth = .ok (ns, rest)) :
    Reads limit depth job ns rest := by
  cases job with
  | block input => exact reads_block_iff.mp h
  | statement f input =>
    obtain ⟨s, hs, hout⟩ := Job.outcome_statement_eq_ok.mp h
    obtain ⟨rfl, rfl⟩ := Prod.mk.inj hout
    exact ReadsUpTo.statement (readsUpTo limit _) (Nat.le_succ _) hs
  | body f input =>
    obtain ⟨s, hs, hout⟩ := Job.outcome_body_eq_ok.mp h
    obtain ⟨rfl, rfl⟩ := Prod.mk.inj hout
    exact ReadsUpTo.body (readsUpTo limit _) (Nat.le_succ _) hs

/-! ## The two readings agree -/

/-- What doing a job gives, with the index of what is left. -/
def Job.located (limit : Nat) (fs : List Fragment) (depth : Nat) (job : Job) : Located :=
  match job.outcome limit depth with
  | .error e => .error (.tooDeep e)
  | .ok (ns, rest) => .ok (ns, fs.length - rest.length)

theorem Reads.located_eq {job : Job} (h : Reads limit depth job ns rest) :
    job.located limit fs depth = .ok (ns, fs.length - rest.length) := by
  rw [Job.located, h.outcome_eq]

theorem Job.Fails.located_eq {job : Job} {e : TooDeep} (h : job.Fails limit depth e) :
    job.located limit fs depth = .error (.tooDeep e) := by
  rw [Job.located, h]

theorem Job.fails_or_reads (limit depth : Nat) (job : Job) :
    (∃ e, job.Fails limit depth e) ∨ ∃ ns rest, Reads limit depth job ns rest := by
  cases h : job.outcome limit depth with
  | error e => exact .inl ⟨e, h⟩
  | ok r => exact .inr ⟨r.1, r.2, Job.reads_of_outcome h⟩

/-- From index `i` on the reader reads blocks as they are read from lists. -/
def Agrees (limit : Nat) (fs : List Fragment) (i : Nat) (nested : Nat → Nat → Located) : Prop :=
  ∀ {depth j : Nat} {input : List Fragment}, i ≤ j → From fs j input →
    nested depth j = (Job.block input).located limit fs depth

namespace Agrees

variable {k : Nat}

theorem bodyAt_eq (hn : Agrees limit fs k nested) (hk : k ≤ i + 1) (h : From fs i input) :
    bodyAt limit fs nested depth f i = (Job.body f input).located limit fs depth := by
  unfold bodyAt
  rw [h.getElem?_eq_head?]
  cases input with
  | nil =>
    have hreads : Reads limit depth (.body f []) [] [] := .unopened (by simp)
    rw [hreads.located_eq, ← h.start_eq]
    rfl
  | cons g gs =>
    rw [List.head?_cons, Option.any_some]
    by_cases ho : g.isOpen = true
    · rw [if_pos ho]
      by_cases hd : limit < depth + 1
      · rw [if_pos hd, (Job.Fails.tooDeep ho (Nat.le_of_lt_succ hd)).located_eq]
      · rw [if_neg hd, hn hk h.succ]
        rcases Job.fails_or_reads limit (depth + 1) (.block gs) with ⟨e, he⟩ | ⟨ns, rest, hr⟩
        · rw [he.located_eq, (he.opened ho (Nat.not_lt.mp hd)).located_eq]
        · rw [hr.located_eq, (Reads.opened ho (Nat.not_lt.mp hd) hr).located_eq]
    · have hreads : Reads limit depth (.body f (g :: gs)) [] (g :: gs) :=
        .unopened (by simpa using ho)
      rw [if_neg ho, hreads.located_eq, ← h.start_eq]

end Agrees

theorem fragmentAt_eq (h : From fs i (f :: rest)) : fragmentAt fs i = .ok f := by
  rw [fragmentAt, h.getElem?_eq]

theorem Agrees.branch_eq (hn : Agrees limit fs (i + 1) nested) (h : From fs i (f :: input))
    (hr : Rule.of f input = .branch) :
    applyAt limit fs nested depth i .branch = (Job.statement f input).located limit fs depth := by
  rw [applyAt, fragmentAt_eq h]
  dsimp only [bind, Except.bind]
  rw [hn.bodyAt_eq (by omega) h.succ]
  rcases Job.fails_or_reads limit depth (.body f input) with ⟨e, he⟩ | ⟨ts, mid, ht⟩
  · rw [he.located_eq, (he.branch hr).located_eq]
  · have hmid := h.succ.of_suffix ht.suffix
    have hle := h.succ.le_of_suffix ht.suffix
    rw [ht.located_eq]
    dsimp only
    rw [hmid.getElem?_eq_head?]
    cases mid with
    | nil =>
      rw [(Reads.branch hr ht (by simp)).located_eq]
      rfl
    | cons g gs =>
      rw [List.head?_cons, Option.any_some]
      by_cases hg : g.isElse = true
      · rw [if_pos hg, hn.bodyAt_eq (by omega) hmid.succ]
        rcases Job.fails_or_reads limit depth (.body f gs) with ⟨e, he⟩ | ⟨us, rest, hu⟩
        · rw [he.located_eq, (Job.Fails.branchElse hr ht hg he).located_eq]
        · rw [hu.located_eq, (Reads.branchElse hr ht hg hu).located_eq]
      · rw [if_neg hg, (Reads.branch hr ht (by simpa using hg)).located_eq]

theorem Agrees.loop_eq (hn : Agrees limit fs (i + 1) nested) (h : From fs i (f :: input))
    (hr : Rule.of f input = .loop) :
    applyAt limit fs nested depth i .loop = (Job.statement f input).located limit fs depth := by
  rw [applyAt, fragmentAt_eq h]
  dsimp only [bind, Except.bind]
  rw [hn.bodyAt_eq (by omega) h.succ]
  rcases Job.fails_or_reads limit depth (.body f input) with ⟨e, he⟩ | ⟨ns, rest, hb⟩
  · rw [he.located_eq, (he.loop hr).located_eq]
  · rw [hb.located_eq, (Reads.loop hr hb).located_eq]

/-- The search for the end of a run of output calls counts from the first of them. -/
theorem output_eq (h : From fs i (f :: input)) (hr : Rule.of f input = .output) :
    applyAt limit fs nested depth i .output = (Job.statement f input).located limit fs depth := by
  let other (g : Fragment) : Bool := !Statement.isOutput g.text
  let count := (f :: input).findIdx other
  have hf : Statement.isOutput f.text = true := isOutput_of_output hr
  have hrun : (f :: input).take count = f :: input.takeWhile (Statement.isOutput ·.text) := by
    rw [← List.takeWhile_eq_take_findIdx_not]
    exact List.takeWhile_cons_of_pos hf
  have hrest : (f :: input).drop count = input.dropWhile (Statement.isOutput ·.text) := by
    rw [← List.dropWhile_eq_drop_findIdx_not]
    exact List.dropWhile_cons_of_pos hf
  have hlength := h.add_length
  have hcount : count ≤ (f :: input).length := List.findIdx_le_length
  have htail : sliceAt fs i fs.length = .ok (f :: input) := by
    rw [sliceAt, if_pos ⟨h.le_length, Nat.le_refl _⟩, List.take_length, h.drop_eq]
  have hstop : (((f :: input).findIdx? other).map (i + ·)).getD fs.length = i + count := by
    rw [List.findIdx?_eq_guard_findIdx_lt, Option.guard]
    split
    · rfl
    · next hlt =>
      rw [decide_eq_true_eq] at hlt
      exact (by omega : fs.length = i + count)
  have hslice : sliceAt fs i (i + count) =
      .ok (f :: input.takeWhile (Statement.isOutput ·.text)) := by
    rw [sliceAt, if_pos (by omega), List.drop_take, Nat.add_sub_cancel_left, h.drop_eq, hrun]
  have hnext : fs.length - (input.dropWhile (Statement.isOutput ·.text)).length = i + count := by
    rw [← hrest, List.length_drop]
    omega
  rw [applyAt, htail, (Reads.output hr).located_eq, hnext]
  dsimp only [bind, Except.bind]
  rw [hstop, hslice]

theorem Agrees.applyAt_eq (hn : Agrees limit fs (i + 1) nested) (h : From fs i (f :: input)) :
    applyAt limit fs nested depth i (Rule.of f input) =
      (Job.statement f input).located limit fs depth := by
  cases hr : Rule.of f input with
  | branch => exact hn.branch_eq h hr
  | loop => exact hn.loop_eq h hr
  | output => exact output_eq h hr
  | declaration => rw [applyAt, (Reads.declaration hr).located_eq, ← h.succ.start_eq]
  | promptedInput =>
    obtain ⟨g, gs, rfl⟩ := exists_cons_of_promptedInput hr
    rw [applyAt, (Reads.promptedInput hr).located_eq, ← h.succ.succ.start_eq, h.succ.textAt_eq]
  | input => rw [applyAt, (Reads.input hr).located_eq, ← h.succ.start_eq, h.textAt_eq]
  | stop => rw [applyAt, (Reads.stop hr).located_eq, ← h.succ.start_eq]
  | process => rw [applyAt, (Reads.process hr).located_eq, ← h.succ.start_eq, h.textAt_eq]

theorem readAt_eq (h : From fs i input) (hs : fs.length < i + steps) :
    readAt limit fs steps depth i = (Job.block input).located limit fs depth := by
  induction steps generalizing depth i input with
  | zero => exact absurd h.le_length (Nat.not_le.mpr hs)
  | succ steps ih =>
    have hagrees : Agrees limit fs (i + 1) (readAt limit fs steps) := fun hj hfrom =>
      ih hfrom (by omega)
    rw [readAt, h.getElem?_eq_head?]
    cases input with
    | nil =>
      rw [(Reads.nil).located_eq, ← h.start_eq]
      rfl
    | cons f input =>
      dsimp only [List.head?_cons]
      cases hc : f.isClose with
      | true => rw [if_pos rfl, (Reads.close hc).located_eq, ← h.succ.start_eq]
      | false =>
        rw [if_neg Bool.false_ne_true]
        cases ho : f.isOpen with
        | true =>
          rw [if_pos rfl, hagrees (Nat.le_refl _) h.succ]
          rcases Job.fails_or_reads limit depth (.block input) with ⟨e, he⟩ | ⟨ns, rest, hb⟩
          · rw [he.located_eq, (he.passOver hc ho).located_eq]
          · rw [hb.located_eq, (Reads.passOver hc ho hb).located_eq]
        | false =>
          rw [if_neg Bool.false_ne_true, h.firstAt_eq, hagrees.applyAt_eq h]
          rcases Job.fails_or_reads limit depth (.statement f input) with ⟨e, he⟩ | ⟨ns, mid, hst⟩
          · rw [he.located_eq, (he.cons_head hc ho).located_eq]
            rfl
          · have hmid := h.succ.of_suffix hst.suffix
            rw [hst.located_eq]
            dsimp only [bind, Except.bind]
            rw [hagrees (h.succ.le_of_suffix hst.suffix) hmid]
            rcases Job.fails_or_reads limit depth (.block mid) with ⟨e, he⟩ | ⟨ms, rest, hb⟩
            · rw [he.located_eq, (he.cons_tail hc ho hst).located_eq]
            · rw [hb.located_eq, (Reads.cons hc ho hst hb).located_eq]

/-- Past the end nothing is read. -/
theorem readFrom_of_length_le {start : Nat} (hs : fs.length ≤ start) :
    readFrom limit depth start fs = .ok ([], start) := by
  have hmax : max start (fs.length - 0) = start := by omega
  rw [readFrom, List.drop_eq_nil_of_le hs, Block.read, Block.block]
  simp only [Except.map, Reading.nothing, List.length_nil, hmax]

/-- Reading by index gives what `readFrom` gives, in one step for each fragment from `start` on and
one more. -/
theorem readAt_eq_readFrom (limit : Nat) (fs : List Fragment) {start : Nat}
    (hs : fs.length - start < steps) (depth : Nat) :
    readAt limit fs steps depth start = (readFrom limit depth start fs).mapError .tooDeep := by
  by_cases hle : start ≤ fs.length
  · rw [readAt_eq ⟨hle, rfl⟩ (by omega), readFrom, Job.located, Job.outcome, Block.read]
    cases hb : Block.block limit depth (fs.drop start) with
    | error e => rfl
    | ok r =>
      have hrest := r.length_rest_le
      rw [List.length_drop] at hrest
      have hmax : max start (fs.length - r.rest.length) = fs.length - r.rest.length := by omega
      simp only [Except.map, Except.mapError, Reading.outcome, hmax]
  · obtain ⟨steps, rfl⟩ := Nat.exists_eq_add_of_lt hs
    have hnone : fs[start]? = none := List.getElem?_eq_none (by omega)
    rw [readFrom_of_length_le (by omega), readAt, hnone]
    rfl

end Block

end Flowchart
