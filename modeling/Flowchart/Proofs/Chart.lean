import Flowchart.Chart
import Flowchart.Proofs.Block.Reads
import Flowchart.Proofs.Layout.Depth

/-!
# What is parsed is laid out

* `Program.depth_ofFragments_le`: a program is at most one level deeper than blocks may nest.
* `Chart.layout_parse`: so it is laid out where the layout allows as many levels as blocks may nest,
  but for one case. A decision without any node inside it needs one more level for its empty
  sequences, even where there are no braces for them.
-/

namespace Flowchart

open Node

namespace Block

variable {limit depth : Nat} {job : Job} {ns : List Node} {rest : List Fragment} {f : Fragment}

/-- How deep the nodes of a job may be: a body lies one level deeper than its header. -/
def Job.room (limit depth : Nat) : Job → Nat
  | .block _ | .statement .. => limit + 1 - depth
  | .body .. => limit - depth

/-- What is read at a depth that the limit allows is no deeper than there is room for. -/
theorem Reads.depthAll_le (h : Reads limit depth job ns rest) (hd : depth ≤ limit) :
    depthAll ns ≤ job.room limit depth := by
  induction h with
  | nil | close => exact Nat.zero_le _
  | passOver _ _ _ ih => exact ih hd
  | cons _ _ _ _ ihs ihb =>
    rw [depthAll_append]
    exact Nat.max_le.mpr ⟨ihs hd, ihb hd⟩
  | declaration | unopened => exact Nat.zero_le _
  | branch _ _ _ ih =>
    have ht := ih hd
    simp only [Job.room, depthAll, Node.depth] at ht ⊢
    omega
  | branchElse _ _ _ _ iht ihu =>
    have ht := iht hd
    have hu := ihu hd
    simp only [Job.room, depthAll, Node.depth] at ht hu ⊢
    omega
  | loop _ _ ih =>
    have hb := ih hd
    simp only [Job.room, depthAll, Node.depth] at hb ⊢
    omega
  | @output _ f fs hr =>
    rcases ofOutputs_eq (f :: fs.takeWhile (Statement.isOutput ·.text)) with h | ⟨label, h⟩ <;>
      simp only [h, Job.room, depthAll, Node.depth] <;> omega
  | promptedInput | input | stop | process =>
    simp only [Job.room, depthAll, Node.ofInput, Node.stop, Node.ofProcess, Node.depth]
    omega
  | opened _ hd' _ ih =>
    have hb := ih hd'
    simp only [Job.room] at hb ⊢
    omega

end Block

open Block

theorem Program.depth_ofFragments_le {limit : Nat} {fs : List Fragment} {p : Program}
    (h : Program.ofFragments limit fs = .ok p) : p.depth ≤ limit + 1 := by
  rw [Program.ofFragments] at h
  cases hread : Block.read limit 0 fs with
  | error e => simp [hread, Except.map] at h
  | ok r =>
    obtain ⟨ns, rest⟩ := r
    obtain rfl : Program.ofNodes ns = p := by simpa [hread, Except.map] using h
    rw [Program.depth_ofNodes]
    exact (reads_block_iff.mp hread).depthAll_le (Nat.zero_le _)

namespace Chart

variable {config : Config} {source : List Char} {p : Program}

theorem mapError_eq_ok {ε ε' β : Type} {x : Except ε β} {g : ε → ε'} {b : β} :
    x.mapError g = .ok b ↔ x = .ok b := by
  cases x with
  | error e => exact iff_of_false nofun nofun
  | ok a =>
    show (Except.ok a : Except ε' β) = .ok b ↔ _
    rw [Except.ok.injEq, Except.ok.injEq]

/-- A program is laid out if and only if all of its decisions have room. -/
theorem exists_layout_eq_ok_iff :
    (∃ scene, layout config p = .ok scene) ↔ Layout.Shallow config.layout.maxDepth 0 p.nodes := by
  simp only [layout, Layout.program, mapError_eq_ok, Layout.exists_sequence_eq_ok_iff, Nat.zero_le,
    true_and]

/-- **Depth.** Where the layout allows as many levels as the parser, a program that is parsed is
laid out, unless a decision without any node inside it lies in as many others as the layout allows.
Where the layout allows more levels, every program that is parsed is laid out. -/
theorem layout_parse (hle : config.maxDepth ≤ config.layout.maxDepth)
    (h : parse config source = .ok p) :
    ((∃ scene, layout config p = .ok scene) ↔
      ∀ n, Within config.layout.maxDepth n p.nodes → ¬n.IsBare) ∧
    (config.maxDepth < config.layout.maxDepth → ∃ scene, layout config p = .ok scene) := by
  have hdepth : p.depth ≤ config.maxDepth + 1 :=
    Program.depth_ofFragments_le (mapError_eq_ok.mp h)
  have hlevel {k : Nat} {n : Node} (hn : Within k n p.nodes) : k < config.maxDepth + 1 ∧
      k + n.depth ≤ config.maxDepth + 1 := by
    have hk : k + n.depth ≤ p.depth := hn.add_depth_le
    have hpos := n.depth_pos
    omega
  rw [exists_layout_eq_ok_iff]
  refine ⟨⟨fun hshallow n hn hbare => ?_, fun hbare k n hn hdecision => ?_⟩,
    fun hlt k n hn hdecision => ?_⟩
  · have := hshallow _ n hn hbare.1
    omega
  · obtain ⟨hk, hn'⟩ := hlevel hn
    rcases Nat.lt_or_ge k config.layout.maxDepth with hlt | hge
    · omega
    · -- There is no level left for a node inside.
      obtain rfl : k = config.layout.maxDepth := by omega
      exact absurd (isBare_of_depth_le_one hdecision (by omega)) (hbare n hn)
  · have := (hlevel hn).1
    omega

/-- One level is enough for `if (a) { b; }`. -/
theorem layout_parse_one :
    let config : Config :=
      { maxDepth := 1, layout := { Layout.Settings.default with maxDepth := 1 } }
    ∃ p, parse config "if (a) { b; }".toList = .ok p ∧ ∃ scene, layout config p = .ok scene := by
  intro config
  let fs : List Fragment := [⟨"if (a)".toList, .between 0 6⟩, ⟨['{'], .between 7 8⟩,
    ⟨"b;".toList, .between 9 11⟩, ⟨['}'], .between 12 13⟩]
  have htokens : tokenize "if (a) { b; }".toList = fs := by decide +kernel
  have hbody : Reads 1 0 (.body fs[0] fs.tail) [.step .process "b"] [] :=
    .opened rfl (by decide) (.cons rfl rfl (.process (by decide +kernel)) (.close rfl))
  have hcondition : Node.branchCondition fs[0].text = "a" := by decide +kernel
  have hreads : Reads 1 0 (.block fs) [.branch "a" [.step .process "b"] []] [] :=
    hcondition ▸ .cons rfl rfl (.branch rfl hbody (by decide)) .nil
  have hparse : parse config "if (a) { b; }".toList =
      .ok (.ofNodes [.branch "a" [.step .process "b"] []]) := by
    refine mapError_eq_ok.mpr ?_
    rw [Program.ofSource, htokens, Program.ofFragments, reads_block_iff.mpr hreads]
    rfl
  refine ⟨_, hparse, (layout_parse (Nat.le_refl 1) hparse).1.mpr ?_⟩
  rintro n ⟨m, hm, seq, hseq, hn⟩ hbare
  have hm : m = .start ∨ m = .branch "a" [.step .process "b"] [] := by
    simpa [Program.ofNodes, Node.kind] using hm
  rcases hm with rfl | rfl
  · simp [Node.start, Node.inner] at hseq
  · have hseq : seq = [.step .process "b"] ∨ seq = [] := by simpa [Node.inner] using hseq
    rcases hseq with rfl | rfl
    · obtain rfl : n = .step .process "b" := List.mem_singleton.mp hn
      cases hbare.1
    · cases hn

/-- Under the limit zero `if (a);` is parsed, but not laid out. -/
theorem layout_parse_bare :
    let config : Config :=
      { maxDepth := 0, layout := { Layout.Settings.default with maxDepth := 0 } }
    config.maxDepth ≤ config.layout.maxDepth ∧
      ∃ p, parse config "if (a);".toList = .ok p ∧ layout config p = .error (.layout ⟨0⟩) := by
  intro config
  let f : Fragment := ⟨"if (a);".toList, .between 0 7⟩
  have htokens : tokenize "if (a);".toList = [f] := by decide +kernel
  have hcondition : Node.branchCondition f.text = "a" := by decide +kernel
  have hreads : Reads 0 0 (.block [f]) [.branch "a" [] []] [] :=
    hcondition ▸ .cons rfl rfl (.branch rfl (.unopened (by simp)) (by simp)) .nil
  refine ⟨Nat.le_refl 0, .ofNodes [.branch "a" [] []], mapError_eq_ok.mpr ?_, rfl⟩
  rw [Program.ofSource, htokens, Program.ofFragments, reads_block_iff.mpr hreads]
  rfl

end Chart

end Flowchart
