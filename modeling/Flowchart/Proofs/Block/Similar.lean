import Flowchart.Proofs.Block.Stop
import Flowchart.Proofs.Fragment.Lines

/-!
# Fragments that read alike

Reading does not look at all of a fragment: it asks which rule it falls under and what label it
gives.

* `Alike`: two fragments that answer each question of the reader in the same way.
* `Similar`: fragments that are alike in order, up to closing braces at the end.
* `Reads.similar`: similar fragments give the same nodes, so the same program
  (`Similar.ofFragments_iff`).
-/

namespace Flowchart

namespace Block

open Statement

variable {limit depth : Nat} {f g : Fragment} {fs gs rest : List Fragment} {ns : List Node}

/-! ## Alike fragments -/

/-- Each question of the reader has the same answer for both fragments. What a statement prints is
asked of outputs only, and what it shows otherwise where no other rule applies. -/
structure Alike (f g : Fragment) : Prop where
  isOpen : f.isOpen = g.isOpen
  isClose : f.isClose = g.isClose
  isElse : f.isElse = g.isElse
  isDeclaration : isDeclaration f.text = isDeclaration g.text
  header : ∀ keyword ∈ ["if", "while", "for"],
    startsWithKeyword keyword f.text = startsWithKeyword keyword g.text
  isOutput : isOutput f.text = isOutput g.text
  isInput : isInput f.text = isInput g.text
  isStop : containsKeyword "return" f.text = containsKeyword "return" g.text
  branchCondition : Node.branchCondition f.text = Node.branchCondition g.text
  loopCondition : Node.loopCondition f.text = Node.loopCondition g.text
  ofInput : Node.ofInput f.text = Node.ofInput g.text
  outputText? : Statement.isOutput f.text = true → outputText? f.text = outputText? g.text
  ofProcess : Rule.of f [] = .process → Node.ofProcess f.text = Node.ofProcess g.text

theorem Alike.of_text (h : f.text = g.text) : Alike f g := by
  constructor <;> simp [Fragment.isOpen, Fragment.isClose, Fragment.isElse, h]

/-- The rule of a fragment depends on whether an input call comes after it. -/
theorem Alike.rule (h : Alike f g)
    (hnext : fs.head?.any (Statement.isInput ·.text) = gs.head?.any (Statement.isInput ·.text)) :
    Rule.of f fs = Rule.of g gs := by
  have hif := h.header "if" (by simp)
  have hwhile := h.header "while" (by simp)
  have hfor := h.header "for" (by simp)
  simp only [Rule.of, h.isDeclaration, hif, hwhile, hfor, h.isOutput, hnext, h.isInput, h.isStop]

theorem Alike.symm (h : Alike f g) : Alike g f where
  isOpen := h.isOpen.symm
  isClose := h.isClose.symm
  isElse := h.isElse.symm
  isDeclaration := h.isDeclaration.symm
  header keyword hk := (h.header keyword hk).symm
  isOutput := h.isOutput.symm
  isInput := h.isInput.symm
  isStop := h.isStop.symm
  branchCondition := h.branchCondition.symm
  loopCondition := h.loopCondition.symm
  ofInput := h.ofInput.symm
  outputText? hg := (h.outputText? (h.isOutput.trans hg)).symm
  ofProcess hg := (h.ofProcess ((h.rule rfl).trans hg)).symm

/-- Whether a statement is shown as it is does not depend on what comes after it. -/
theorem of_nil_of_process (h : Rule.of f fs = .process) : Rule.of f [] = .process := by
  unfold Rule.of at h ⊢
  grind

/-! ## Similar sequences -/

/-- Fragments that are alike in order, up to closing braces at the end. -/
inductive Similar : List Fragment → List Fragment → Prop where
  | ends {fs gs : List Fragment} (hf : ∀ f ∈ fs, f.isClose = true)
      (hg : ∀ g ∈ gs, g.isClose = true) : Similar fs gs
  | cons {f g : Fragment} {fs gs : List Fragment} (head : Alike f g) (tail : Similar fs gs) :
      Similar (f :: fs) (g :: gs)

namespace Similar

theorem symm (h : Similar fs gs) : Similar gs fs := by
  induction h with
  | ends hf hg => exact .ends hg hf
  | cons head _ ih => exact .cons head.symm ih

/-- Fragments with the same texts in front. -/
theorem append {as bs : List Fragment} (h : texts as = texts bs) (hs : Similar fs gs) :
    Similar (as ++ fs) (bs ++ gs) := by
  induction as generalizing bs with
  | nil =>
    obtain rfl : bs = [] := by simpa [texts] using h.symm
    exact hs
  | cons a as ih =>
    cases bs with
    | nil => simp [texts] at h
    | cons b bs =>
      obtain ⟨hhead, htail⟩ := List.cons.inj h
      exact .cons (.of_text hhead) (ih htail)

theorem of_texts (h : texts fs = texts gs) : Similar fs gs := by
  have hnil : Similar [] [] := .ends (by simp) (by simp)
  simpa using append h hnil

/-- A fragment that is no closing brace has a partner. -/
theorem exists_cons (h : Similar (f :: fs) gs) (hc : f.isClose = false) :
    ∃ g gs', gs = g :: gs' ∧ Alike f g ∧ Similar fs gs' := by
  cases h with
  | ends hf =>
    rw [hf f List.mem_cons_self] at hc
    cases hc
  | cons head tail => exact ⟨_, _, rfl, head, tail⟩

end Similar

/-- A closing brace is nothing else. -/
theorem of_isClose (h : f.isClose = true) :
    f.isOpen = false ∧ f.isElse = false ∧ Statement.isOutput f.text = false ∧
      Statement.isInput f.text = false := by
  have ht : f.text = ['}'] := by simpa [Fragment.isClose] using h
  rw [Fragment.isOpen, Fragment.isElse, ht]
  decide

namespace Similar

/-- What is asked of the first fragment, where closing braces answer no. -/
theorem any_head? (h : Similar fs gs) {P : Fragment → Bool}
    (hP : ∀ {f g : Fragment}, Alike f g → P f = P g)
    (hclose : ∀ {f : Fragment}, f.isClose = true → P f = false) :
    fs.head?.any P = gs.head?.any P := by
  have hnone {fs : List Fragment} (hf : ∀ f ∈ fs, f.isClose = true) : fs.head?.any P = false := by
    cases fs with
    | nil => rfl
    | cons f fs => exact hclose (hf f List.mem_cons_self)
  cases h with
  | ends hf hg => rw [hnone hf, hnone hg]
  | cons head _ => exact hP head

theorem rule (hs : Similar fs gs) (h : Alike f g) : Rule.of f fs = Rule.of g gs :=
  h.rule (hs.any_head? (·.isInput) fun hc => (of_isClose hc).2.2.2)

theorem isElse_head? (h : Similar fs gs) (hf : ∀ f ∈ fs.head?, f.isElse = false) :
    ∀ g ∈ gs.head?, g.isElse = false := by
  have heq := h.any_head? (P := Fragment.isElse) (·.isElse) fun hc => (of_isClose hc).2.1
  cases fs <;> cases gs <;> simp_all

theorem isOpen_head? (h : Similar fs gs) (hf : ∀ f ∈ fs.head?, f.isOpen = false) :
    ∀ g ∈ gs.head?, g.isOpen = false := by
  have heq := h.any_head? (P := Fragment.isOpen) (·.isOpen) fun hc => (of_isClose hc).1
  cases fs <;> cases gs <;> simp_all

/-- A run of outputs at the front, and what comes after it. -/
theorem outputs (h : Similar fs gs) :
    (fs.takeWhile (Statement.isOutput ·.text)).map (outputText? ·.text) =
      (gs.takeWhile (Statement.isOutput ·.text)).map (outputText? ·.text) ∧
    Similar (fs.dropWhile (Statement.isOutput ·.text))
      (gs.dropWhile (Statement.isOutput ·.text)) := by
  have hends {fs : List Fragment} (hf : ∀ f ∈ fs, f.isClose = true) :
      fs.takeWhile (Statement.isOutput ·.text) = [] ∧
        fs.dropWhile (Statement.isOutput ·.text) = fs := by
    cases fs with
    | nil => exact ⟨rfl, rfl⟩
    | cons f fs => simp [(of_isClose (hf f List.mem_cons_self)).2.2.1]
  induction h with
  | ends hf hg =>
    rw [(hends hf).1, (hends hf).2, (hends hg).1, (hends hg).2]
    exact ⟨rfl, .ends hf hg⟩
  | @cons f g fs gs head tail ih =>
    cases ho : Statement.isOutput f.text with
    | true =>
      have hg : Statement.isOutput g.text = true := head.isOutput ▸ ho
      simp only [List.takeWhile_cons, List.dropWhile_cons, ho, hg, ↓reduceIte, List.map_cons,
        head.outputText? ho, ih.1, true_and]
      exact ih.2
    | false =>
      have hg : Statement.isOutput g.text = false := head.isOutput ▸ ho
      simp only [List.takeWhile_cons, List.dropWhile_cons, ho, hg, Bool.false_eq_true, ↓reduceIte,
        List.map_nil, true_and]
      exact .cons head tail

end Similar

/-- What is printed decides the nodes of a run of outputs. -/
theorem ofOutputs_congr (h : fs.map (outputText? ·.text) = gs.map (outputText? ·.text)) :
    Node.ofOutputs fs = Node.ofOutputs gs := by
  have hmap (fs : List Fragment) :
      fs.filterMap (fun f => (outputText? f.text).filter (!·.isEmpty)) =
      (fs.map (outputText? ·.text)).filterMap (·.filter (!·.isEmpty)) := by
    rw [List.filterMap_map]
    rfl
  simp only [Node.ofOutputs, hmap, h]

/-! ## Reading similar sequences -/

/-- Jobs on similar fragments. Which header a body has makes no difference to what is read. -/
inductive Job.Similar : Job → Job → Prop where
  | block {fs gs : List Fragment} (h : Block.Similar fs gs) : Job.Similar (.block fs) (.block gs)
  | statement {f g : Fragment} {fs gs : List Fragment} (head : Alike f g)
      (h : Block.Similar fs gs) : Job.Similar (.statement f fs) (.statement g gs)
  | body {f g : Fragment} {fs gs : List Fragment} (h : Block.Similar fs gs) :
      Job.Similar (.body f fs) (.body g gs)

/-- A block of closing braces only ends at the first one, if there is any. -/
theorem exists_reads_of_isClose (h : ∀ g ∈ gs, g.isClose = true) :
    ∃ rest, Reads limit depth (.block gs) [] rest ∧ ∀ g ∈ rest, g.isClose = true := by
  cases gs with
  | nil => exact ⟨[], .nil, h⟩
  | cons g gs =>
    obtain ⟨hg, hgs⟩ := List.forall_mem_cons.mp h
    exact ⟨gs, .close hg, hgs⟩

/-- A job on similar fragments gives the same nodes and leaves similar fragments. -/
theorem Reads.similar {job job' : Job} (h : Reads limit depth job ns rest)
    (hjob : job.Similar job') :
    ∃ rest', Reads limit depth job' ns rest' ∧ Block.Similar rest rest' := by
  induction h generalizing job' with
  | nil =>
    obtain ⟨hs⟩ := hjob
    cases hs with
    | ends hf hg =>
      obtain ⟨rest', hread, hrest⟩ := exists_reads_of_isClose hg
      exact ⟨rest', hread, .ends hf hrest⟩
  | close hf =>
    obtain ⟨hs⟩ := hjob
    cases hs with
    | ends hfs hgs =>
      obtain ⟨rest', hread, hrest⟩ := exists_reads_of_isClose hgs
      exact ⟨rest', hread, .ends (List.forall_mem_cons.mp hfs).2 hrest⟩
    | cons head tail => exact ⟨_, .close (head.isClose ▸ hf), tail⟩
  | passOver hc ho _ ih =>
    obtain ⟨hs⟩ := hjob
    obtain ⟨g, gs, rfl, head, tail⟩ := hs.exists_cons hc
    obtain ⟨rest', hread, hrest⟩ := ih (.block tail)
    exact ⟨rest', .passOver (head.isClose ▸ hc) (head.isOpen ▸ ho) hread, hrest⟩
  | cons hc ho _ _ ihs ihb =>
    obtain ⟨hs⟩ := hjob
    obtain ⟨g, gs, rfl, head, tail⟩ := hs.exists_cons hc
    obtain ⟨mid', hstatement, hmid⟩ := ihs (.statement head tail)
    obtain ⟨rest', hblock, hrest⟩ := ihb (.block hmid)
    exact ⟨rest', .cons (head.isClose ▸ hc) (head.isOpen ▸ ho) hstatement hblock, hrest⟩
  | declaration hr =>
    obtain _ | ⟨head, hs⟩ | _ := hjob
    exact ⟨_, .declaration (hs.rule head ▸ hr), hs⟩
  | branch hr _ he ih =>
    obtain _ | ⟨head, hs⟩ | _ := hjob
    obtain ⟨rest', hbody, hrest⟩ := ih (.body hs)
    rw [head.branchCondition]
    exact ⟨rest', .branch (hs.rule head ▸ hr) hbody (hrest.isElse_head? he), hrest⟩
  | branchElse hr _ he _ iht ihu =>
    obtain _ | ⟨head, hs⟩ | _ := hjob
    obtain ⟨mid, htrue, hmid⟩ := iht (.body hs)
    obtain ⟨g', gs', rfl, hg, hgs⟩ := hmid.exists_cons (not_brace_of_isElse he).2
    obtain ⟨rest', hfalse, hrest⟩ := ihu (.body hgs)
    rw [head.branchCondition]
    exact ⟨rest', .branchElse (hs.rule head ▸ hr) htrue (hg.isElse ▸ he) hfalse, hrest⟩
  | loop hr _ ih =>
    obtain _ | ⟨head, hs⟩ | _ := hjob
    obtain ⟨rest', hbody, hrest⟩ := ih (.body hs)
    rw [head.loopCondition]
    exact ⟨rest', .loop (hs.rule head ▸ hr) hbody, hrest⟩
  | @promptedInput _ f g fs hr =>
    obtain _ | ⟨head, hs⟩ | _ := hjob
    have hin : Statement.isInput g.text = true := (of_promptedInput hr).2
    have hclose : g.isClose = false := (isPlain_of_isInput hin).not_close
    have hrule := hs.rule head
    obtain ⟨g', gs', rfl, hg, hgs⟩ := hs.exists_cons hclose
    rw [hg.ofInput]
    exact ⟨gs', .promptedInput (hrule ▸ hr), hgs⟩
  | @output _ f fs hr =>
    obtain _ | @⟨_, g, _, gs, head, hs⟩ | _ := hjob
    obtain ⟨hrun, hrest⟩ := hs.outputs
    have hhead := head.outputText? (isOutput_of_output hr)
    have hnodes : Node.ofOutputs (f :: fs.takeWhile (Statement.isOutput ·.text)) =
        Node.ofOutputs (g :: gs.takeWhile (Statement.isOutput ·.text)) :=
      ofOutputs_congr (congrArg₂ List.cons hhead hrun)
    rw [hnodes]
    exact ⟨_, .output (hs.rule head ▸ hr), hrest⟩
  | input hr =>
    obtain _ | ⟨head, hs⟩ | _ := hjob
    rw [head.ofInput]
    exact ⟨_, .input (hs.rule head ▸ hr), hs⟩
  | stop hr =>
    obtain _ | ⟨head, hs⟩ | _ := hjob
    exact ⟨_, .stop (hs.rule head ▸ hr), hs⟩
  | process hr =>
    obtain _ | ⟨head, hs⟩ | _ := hjob
    rw [head.ofProcess (of_nil_of_process hr)]
    exact ⟨_, .process (hs.rule head ▸ hr), hs⟩
  | opened ho hd _ ih =>
    obtain _ | _ | ⟨hs⟩ := hjob
    obtain ⟨g, gs, rfl, head, tail⟩ := hs.exists_cons (isClose_of_isOpen ho)
    obtain ⟨rest', hblock, hrest⟩ := ih (.block tail)
    exact ⟨rest', .opened (head.isOpen ▸ ho) hd hblock, hrest⟩
  | unopened ho =>
    obtain _ | _ | ⟨hs⟩ := hjob
    exact ⟨_, .unopened (hs.isOpen_head? ho), hs⟩

end Block

open Block in
/-- Similar fragments make the same program, or none. -/
theorem Block.Similar.ofFragments_iff {fs gs : List Fragment} (h : Similar fs gs) (limit : Nat)
    (p : Program) :
    Program.ofFragments limit fs = .ok p ↔ Program.ofFragments limit gs = .ok p := by
  have hmp {fs gs : List Fragment} (h : Similar fs gs)
      (hp : Program.ofFragments limit fs = .ok p) : Program.ofFragments limit gs = .ok p := by
    rw [Program.ofFragments] at hp
    cases hread : Block.read limit 0 fs with
    | error e => simp [hread, Except.map] at hp
    | ok r =>
      obtain ⟨rest', hread', -⟩ := (reads_block_iff.mp hread).similar (.block h)
      rw [Program.ofFragments, reads_block_iff.mpr hread', ← hp, hread]
      rfl
  exact ⟨hmp h, hmp h.symm⟩

end Flowchart
