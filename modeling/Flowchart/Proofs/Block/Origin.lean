import Mathlib.Data.List.Forall2
import Flowchart.Proofs.Block.Stop
import Flowchart.Proofs.Flow

/-!
# Which fragment a node comes from

* `Rule.outline?`: the kind and the label of the node that a fragment becomes, if it becomes one.
* `Nodeless`: the reasons why a fragment that is read becomes no node of its own.
* `readFrom_accounts`: the nodes that are read, depth first, come from fragments in increasing
  order, and each other fragment that is read is nodeless.
-/

namespace Flowchart

/-- The kind and the label of the node that the rule of the fragment `f` builds when `rest` comes
after it, if it builds one. -/
def Rule.outline? (f : Fragment) (rest : List Fragment) : Option (NodeKind × String) :=
  match Rule.of f rest with
  | .declaration => none
  | .branch => some (.branch, Node.branchCondition f.text)
  | .loop => some (.loop, Node.loopCondition f.text)
  | .promptedInput => rest.head?.map fun g => (Node.ofInput g.text).outline
  | .output =>
    (Node.ofOutputs (f :: rest.takeWhile (Statement.isOutput ·.text))).head?.map Node.outline
  | .input => some (Node.ofInput f.text).outline
  | .stop => some Node.stop.outline
  | .process => some (Node.ofProcess f.text).outline

namespace Block

open Node

variable {limit depth start stop i j : Nat} {f g : Fragment} {fs input rest : List Fragment}
  {ns ms : List Node} {outer shown shown' : List Nat}

/-! ## Positions -/

/-- The rule of the fragment at index `i`. -/
def ruleAt? (fs : List Fragment) (i : Nat) : Option Rule :=
  fs[i]?.map (Rule.of · (fs.drop (i + 1)))

/-- The kind and the label of the node that the rule table builds from the fragment at index `i`. -/
def outlineAt? (fs : List Fragment) (i : Nat) : Option (NodeKind × String) :=
  fs[i]?.bind (Rule.outline? · (fs.drop (i + 1)))

/-- The fragment at index `i` becomes no node of its own. Nodes come from the fragments at the
indices `shown`. -/
inductive Nodeless (limit : Nat) (fs : List Fragment) (shown : List Nat) (i : Nat) : Prop where
  | brace {f : Fragment} (hf : fs[i]? = some f) (hb : f.isOpen = true ∨ f.isClose = true)
  | declaration (hr : ruleAt? fs i = some .declaration)
  /-- An `else` right after all that is read of the true branch of the `if` at index `j`. -/
  | otherwise {j depth : Nat} {f g : Fragment} {ts : List Node} (hj : j ∈ shown)
      (hr : ruleAt? fs j = some .branch) (hf : fs[j]? = some f) (hg : fs[i]? = some g)
      (he : g.isElse = true)
      (hread : Reads limit depth (.body f (fs.drop (j + 1))) ts (fs.drop i))
  /-- The input call that the output call before it asks for. -/
  | inputCall {j : Nat} (hj : j ∈ shown) (hr : ruleAt? fs j = some .promptedInput) (hi : i = j + 1)
  /-- A member of the run of output calls that begins at index `j`: the run is shown by a node, or
  prints nothing. -/
  | output {j : Nat} (hj : j ∈ shown ∨ outlineAt? fs j = none) (hr : ruleAt? fs j = some .output)
      (hji : j ≤ i) (hrun : ∀ k, j ≤ k → k ≤ i → ∃ g, fs[k]? = some g ∧ Statement.isOutput g.text)

theorem Nodeless.mono (h : Nodeless limit fs shown i) (hsub : shown ⊆ shown') :
    Nodeless limit fs shown' i := by
  cases h with
  | brace hf hb => exact .brace hf hb
  | declaration hr => exact .declaration hr
  | otherwise hj hr hf hg he hread => exact .otherwise (hsub hj) hr hf hg he hread
  | inputCall hj hr hi => exact .inputCall (hsub hj) hr hi
  | output hj hr hji hrun => exact .output (hj.imp_left (hsub ·)) hr hji hrun

/-! ## Accounts -/

/-- The nodes come from the fragments at the indices `shown` between `start` and `stop`, in this
order, and the other fragments there are nodeless. An `else` or a member of a run may belong to a
fragment at one of the indices `outer`. -/
structure Accounts (limit : Nat) (fs : List Fragment) (outer : List Nat) (start stop : Nat)
    (nodes : List Node) (shown : List Nat) : Prop where
  start_le : start ≤ stop
  increasing : shown.Pairwise (· < ·)
  within : ∀ i ∈ shown, start ≤ i ∧ i < stop
  outlines : List.Forall₂ (fun n i => outlineAt? fs i = some n.outline) (preorderAll nodes) shown
  nodeless : ∀ i, start ≤ i → i < stop → i ∉ shown → Nodeless limit fs (outer ++ shown) i

namespace Accounts

variable {mid : Nat}

theorem nil (outer : List Nat) (start : Nat) : Accounts limit fs outer start start [] [] where
  start_le := Nat.le_refl _
  increasing := .nil
  within := by simp
  outlines := .nil
  nodeless i hi hi' := absurd hi' (by omega)

/-- Fragments that all become no node. -/
theorem of_nodeless (hle : start ≤ stop)
    (h : ∀ i, start ≤ i → i < stop → Nodeless limit fs outer i) :
    Accounts limit fs outer start stop [] [] where
  start_le := hle
  increasing := .nil
  within := by simp
  outlines := .nil
  nodeless i hi hi' _ := by simpa using h i hi hi'

theorem of_nodeless_one (h : Nodeless limit fs outer start) :
    Accounts limit fs outer start (start + 1) [] [] := by
  refine of_nodeless (Nat.le_succ _) fun i hi hi' => ?_
  obtain rfl : i = start := by omega
  exact h

theorem weaken (h : Accounts limit fs [] start stop ns shown) (outer : List Nat) :
    Accounts limit fs outer start stop ns shown :=
  { h with nodeless := fun i hi hi' hn => (h.nodeless i hi hi' hn).mono (by simp) }

theorem append (h : Accounts limit fs outer start mid ns shown)
    (h' : Accounts limit fs outer mid stop ms shown') :
    Accounts limit fs outer start stop (ns ++ ms) (shown ++ shown') where
  start_le := h.start_le.trans h'.start_le
  increasing := by
    refine List.pairwise_append.mpr ⟨h.increasing, h'.increasing, fun i hi j hj => ?_⟩
    exact Nat.lt_of_lt_of_le (h.within i hi).2 (h'.within j hj).1
  within i hi := by
    have := h.start_le
    have := h'.start_le
    rcases List.mem_append.mp hi with hi | hi
    · have := h.within i hi
      omega
    · have := h'.within i hi
      omega
  outlines := by
    rw [preorderAll_append]
    exact List.rel_append h.outlines h'.outlines
  nodeless i hi hi' hn := by
    rw [List.mem_append, not_or] at hn
    by_cases him : i < mid
    · exact (h.nodeless i hi him hn.1).mono (by grind)
    · exact (h'.nodeless i (by omega) hi' hn.2).mono (by grind)

/-- A node that comes from the fragment at `start`, and the nodes inside it. -/
theorem node {n : Node} (hn : outlineAt? fs start = some n.outline)
    (hpre : n.preorder = n :: preorderAll ns)
    (h : Accounts limit fs [start] (start + 1) stop ns shown) :
    Accounts limit fs [] start stop [n] (start :: shown) where
  start_le := Nat.le_of_succ_le h.start_le
  increasing := List.pairwise_cons.mpr ⟨fun i hi => (h.within i hi).1, h.increasing⟩
  within := by
    have := h.start_le
    refine List.forall_mem_cons.mpr ⟨by omega, fun i hi => ?_⟩
    have := h.within i hi
    omega
  outlines := by
    rw [preorderAll_cons, preorderAll_nil, List.append_nil, hpre]
    exact .cons hn h.outlines
  nodeless i hi hi' hns := by
    rw [List.mem_cons, not_or] at hns
    exact h.nodeless i (by omega) hi' hns.2

end Accounts

/-! ## Where a job begins -/

/-- The fragments from index `start` on are `input`. -/
structure From (fs : List Fragment) (start : Nat) (input : List Fragment) : Prop where
  le_length : start ≤ fs.length
  drop_eq : fs.drop start = input

namespace From

theorem start_eq (h : From fs start input) : start = fs.length - input.length := by
  have hlen := congrArg List.length h.drop_eq
  have := h.le_length
  rw [List.length_drop] at hlen
  omega

theorem succ (h : From fs start (f :: rest)) : From fs (start + 1) rest where
  le_length := by
    have hlen := congrArg List.length h.drop_eq
    rw [List.length_drop, List.length_cons] at hlen
    omega
  drop_eq := by rw [← List.tail_drop, h.drop_eq, List.tail_cons]

theorem getElem?_eq (h : From fs start (f :: rest)) : fs[start]? = some f := by
  rw [← List.head?_drop, h.drop_eq, List.head?_cons]

theorem ruleAt?_eq (h : From fs start (f :: rest)) : ruleAt? fs start = some (Rule.of f rest) := by
  rw [ruleAt?, h.getElem?_eq, h.succ.drop_eq, Option.map_some]

theorem outlineAt?_eq (h : From fs start (f :: rest)) :
    outlineAt? fs start = Rule.outline? f rest := by
  rw [outlineAt?, h.getElem?_eq, h.succ.drop_eq, Option.bind_some]

/-- The fragments of a run, and what comes after it. -/
theorem exists_dropWhile {P : Fragment → Bool} (h : From fs start input) :
    ∃ stop, start ≤ stop ∧ From fs stop (input.dropWhile P) ∧
      ∀ k, start ≤ k → k < stop → ∃ g, fs[k]? = some g ∧ P g = true := by
  induction input generalizing start with
  | nil => exact ⟨start, Nat.le_refl _, h, fun k hk hk' => absurd hk' (by omega)⟩
  | cons f rest ih =>
    cases hP : P f with
    | false =>
      refine ⟨start, Nat.le_refl _, ?_, fun k hk hk' => absurd hk' (by omega)⟩
      rwa [List.dropWhile_cons_of_neg (by simp [hP])]
    | true =>
      obtain ⟨stop, hle, hstop, hall⟩ := ih h.succ
      rw [List.dropWhile_cons_of_pos hP]
      refine ⟨stop, by omega, hstop, fun k hk hk' => ?_⟩
      by_cases hks : k = start
      · exact ⟨f, hks ▸ h.getElem?_eq, hP⟩
      · exact hall k (by omega) hk'

end From

/-- The job is to be done at index `start`. -/
def Job.At (fs : List Fragment) (start : Nat) : Job → Prop
  | .block input => From fs start input
  | .statement f input => From fs start (f :: input)
  | .body _ input => From fs start input

/-! ## What reading accounts for -/

namespace Accounts

/-- A step that comes from the fragment at `start`. -/
theorem step {kind : StepKind} {label : String}
    (hn : outlineAt? fs start = some (Node.step kind label).outline)
    (h : Accounts limit fs [start] (start + 1) stop [] shown) :
    Accounts limit fs [] start stop [.step kind label] (start :: shown) :=
  node hn rfl h

/-- A run of output calls. -/
theorem outputs (hat : From fs start (f :: input)) (hr : Rule.of f input = .output) :
    ∃ stop shown, From fs stop (input.dropWhile (Statement.isOutput ·.text)) ∧
      Accounts limit fs [] start stop
        (Node.ofOutputs (f :: input.takeWhile (Statement.isOutput ·.text))) shown := by
  obtain ⟨stop, hle, hstop, hall⟩ :=
    hat.succ.exists_dropWhile (P := (Statement.isOutput ·.text))
  have hrule : ruleAt? fs start = some .output := hr ▸ hat.ruleAt?_eq
  have hrun (k : Nat) (hk : start ≤ k) (hk' : k < stop) :
      ∃ g, fs[k]? = some g ∧ Statement.isOutput g.text = true := by
    by_cases hks : k = start
    · exact ⟨f, hks ▸ hat.getElem?_eq, isOutput_of_output hr⟩
    · exact hall k (by omega) hk'
  have houtline := hat.outlineAt?_eq
  simp only [Rule.outline?, hr] at houtline
  rcases ofOutputs_eq (f :: input.takeWhile (Statement.isOutput ·.text)) with hnil | ⟨label, hone⟩
  · rw [hnil] at houtline ⊢
    refine ⟨stop, [], hstop, of_nodeless (by omega) fun i hi hi' => ?_⟩
    exact .output (.inr houtline) hrule hi fun k hk hk' => hrun k hk (by omega)
  · rw [hone] at houtline ⊢
    refine ⟨stop, [start], hstop, .step houtline (of_nodeless hle fun i hi hi' => ?_)⟩
    exact .output (.inl (by simp)) hrule (by omega) fun k hk hk' => hrun k hk (by omega)

end Accounts

/-- What is read is accounted for. -/
theorem accounts_of_reads {job : Job} (h : Reads limit depth job ns rest) (hat : job.At fs start) :
    ∃ stop shown, From fs stop rest ∧ Accounts limit fs [] start stop ns shown := by
  induction h generalizing start with
  | nil => exact ⟨start, [], hat, .nil _ _⟩
  | close hf =>
    exact ⟨start + 1, [], hat.succ, .of_nodeless_one (.brace hat.getElem?_eq (.inr hf))⟩
  | passOver hc ho _ ih =>
    obtain ⟨stop, shown, hstop, hacc⟩ := ih hat.succ
    have hbrace : Accounts limit fs [] start (start + 1) [] [] :=
      .of_nodeless_one (.brace hat.getElem?_eq (.inl ho))
    exact ⟨stop, shown, hstop, hbrace.append hacc⟩
  | cons hc ho _ _ ihs ihb =>
    obtain ⟨mid, shown, hmid, hs⟩ := ihs hat
    obtain ⟨stop, shown', hstop, hb⟩ := ihb hmid
    exact ⟨stop, shown ++ shown', hstop, hs.append hb⟩
  | declaration hr =>
    exact ⟨start + 1, [], hat.succ, .of_nodeless_one (.declaration (hr ▸ hat.ruleAt?_eq))⟩
  | branch hr _ _ ih =>
    obtain ⟨stop, shown, hstop, ht⟩ := ih hat.succ
    refine ⟨stop, start :: shown, hstop, (ht.weaken _).node ?_ ?_⟩
    · rw [hat.outlineAt?_eq, Rule.outline?, hr]
      rfl
    · rw [preorder, preorderAll_nil, List.append_nil]
  | @branchElse depth f g input gs rest ts us hr htrue he _ iht ihu =>
    obtain ⟨mid, shown, hmid, ht⟩ := iht hat.succ
    obtain ⟨stop, shown', hstop, hu⟩ := ihu hmid.succ
    have hread : Reads limit depth (.body f (fs.drop (start + 1))) ts (fs.drop mid) := by
      rwa [hat.succ.drop_eq, hmid.drop_eq]
    have helse : Accounts limit fs [start] mid (mid + 1) [] [] :=
      .of_nodeless_one (.otherwise (by simp) (hr ▸ hat.ruleAt?_eq) hat.getElem?_eq
        hmid.getElem?_eq he hread)
    refine ⟨stop, start :: (shown ++ shown'), hstop, ?_⟩
    have hall : Accounts limit fs [start] (start + 1) stop (ts ++ us) (shown ++ shown') :=
      (ht.weaken _).append (helse.append (hu.weaken _))
    refine hall.node ?_ (by rw [preorderAll_append, preorder])
    rw [hat.outlineAt?_eq, Rule.outline?, hr]
    rfl
  | loop hr _ ih =>
    obtain ⟨stop, shown, hstop, hb⟩ := ih hat.succ
    refine ⟨stop, start :: shown, hstop, (hb.weaken _).node ?_ rfl⟩
    rw [hat.outlineAt?_eq, Rule.outline?, hr]
    rfl
  | promptedInput hr =>
    refine ⟨start + 2, [start], hat.succ.succ, .step ?_ (.of_nodeless_one ?_)⟩
    · rw [hat.outlineAt?_eq, Rule.outline?, hr]
      rfl
    · exact .inputCall (by simp) (hr ▸ hat.ruleAt?_eq) rfl
  | output hr => exact Accounts.outputs hat hr
  | input hr | stop hr | process hr =>
    refine ⟨start + 1, [start], hat.succ, .step ?_ (.nil _ _)⟩
    rw [hat.outlineAt?_eq, Rule.outline?, hr]
    rfl
  | @opened _ f g fs' rest ns ho _ _ ih =>
    obtain ⟨stop, shown, hstop, hacc⟩ := ih hat.succ
    have hbrace : Accounts limit fs [] start (start + 1) [] [] :=
      .of_nodeless_one (.brace hat.getElem?_eq (.inl ho))
    exact ⟨stop, shown, hstop, hbrace.append hacc⟩
  | unopened => exact ⟨start, [], hat, .nil _ _⟩

/-- **Nothing is lost, doubled or moved.** The nodes that are read, depth first, come from fragments
at increasing indices, each with the kind and the label that the rule table builds from the fragment
there. Every other fragment that is read has a reason to become no node of its own. -/
theorem readFrom_accounts {next : Nat} (h : Block.readFrom limit 0 0 fs = .ok (ns, next)) :
    next ≤ fs.length ∧ ∃ shown : List Nat, shown.Pairwise (· < ·) ∧ (∀ i ∈ shown, i < next) ∧
      List.Forall₂ (fun n i => outlineAt? fs i = some n.outline) (preorderAll ns) shown ∧
      ∀ i < next, i ∉ shown → Nodeless limit fs shown i := by
  obtain ⟨rest, hr, rfl⟩ := readFrom_zero_eq_ok.mp h
  have hat : Job.At fs 0 (.block fs) := ⟨Nat.zero_le _, List.drop_zero⟩
  obtain ⟨stop, shown, hstop, hacc⟩ := accounts_of_reads hr hat
  rw [← hstop.start_eq]
  refine ⟨hstop.le_length, shown, hacc.increasing, fun i hi => (hacc.within i hi).2,
    hacc.outlines, fun i hi => ?_⟩
  simpa using hacc.nodeless i (Nat.zero_le _) hi

/-- Four nodes come from eleven fragments:
`int n; printf("n"); scanf("%d", &n); if (n) { a; } else { b; }`. -/
theorem readFrom_accounts_branches :
    let fs : List Fragment := [⟨"int n;".toList, .between 0 6⟩,
      ⟨"printf(\"n\");".toList, .between 7 19⟩, ⟨"scanf(\"%d\", &n);".toList, .between 20 36⟩,
      ⟨"if (n)".toList, .between 37 43⟩, ⟨['{'], .between 44 45⟩, ⟨"a;".toList, .between 46 48⟩,
      ⟨['}'], .between 49 50⟩, ⟨"else".toList, .between 51 55⟩, ⟨['{'], .between 56 57⟩,
      ⟨"b;".toList, .between 58 60⟩, ⟨['}'], .between 61 62⟩]
    Block.readFrom 64 0 0 fs = .ok ([.step .io "Input n",
      .branch "n" [.step .process "a"] [.step .process "b"]], 11) ∧
    ∃ shown : List Nat, shown.length = 4 ∧ shown.Pairwise (· < ·) ∧
      ∀ i < 11, i ∉ shown → Nodeless 64 fs shown i := by
  intro fs
  have htarget : Statement.inputTarget? fs[2].text = some ['n'] := by decide +kernel
  have hinput : Node.ofInput fs[2].text = .step .io "Input n" := by
    rw [Node.ofInput, htarget]
    rfl
  have hprompt : Reads 64 0 (.statement fs[1] (fs.drop 2)) [.step .io "Input n"] (fs.drop 3) :=
    hinput ▸ .promptedInput (by decide +kernel)
  have hcondition : Node.branchCondition fs[3].text = "n" := by decide +kernel
  have htrue : Reads 64 0 (.body fs[3] (fs.drop 4)) [.step .process "a"] (fs.drop 7) :=
    .opened rfl (by decide) (.cons rfl rfl (.process (by decide +kernel)) (.close rfl))
  have hfalse : Reads 64 0 (.body fs[3] (fs.drop 8)) [.step .process "b"] (fs.drop 11) :=
    .opened rfl (by decide) (.cons rfl rfl (.process (by decide +kernel)) (.close rfl))
  have hbranch : Reads 64 0 (.statement fs[3] (fs.drop 4))
      [.branch "n" [.step .process "a"] [.step .process "b"]] (fs.drop 11) :=
    hcondition ▸ .branchElse (by decide +kernel) htrue rfl hfalse
  have hreads : Reads 64 0 (.block fs) [.step .io "Input n",
      .branch "n" [.step .process "a"] [.step .process "b"]] [] :=
    .cons rfl rfl (.declaration (by decide +kernel))
      (.cons rfl rfl hprompt (.cons rfl rfl hbranch .nil))
  have hread := readFrom_zero_eq_ok.mpr ⟨_, hreads, rfl⟩
  obtain ⟨-, shown, hlt, -, houtlines, hrest⟩ := readFrom_accounts hread
  exact ⟨hread, shown, houtlines.length_eq.symm, hlt, hrest⟩

end Block

end Flowchart
