import Flowchart.Proofs.Block.Unpaired
import Flowchart.Proofs.Fragment.Partition
import Flowchart.Proofs.Repair.Reported
import Mathlib.Data.List.Sort

/-!
# Open blocks

Repair finds the blocks that are open at the end by matching the braces of all lines that it does
not pass over, whatever a brace is part of. `unclosed_eq_unpaired_iff` compares this with matching
the brace fragments: the two agree where they leave the same braces without a partner, and so they
do wherever exactly the braces that repair looks at are fragments.

* `countedBraces`: the braces that repair looks at.
* `opened_eq`: those of them that are open at the end are those without a partner.
-/

namespace Flowchart.Repair

open Block
open Text (byteLength trim)

variable {offset : Nat} {opened : List Fragment} {source : List Char} {ps : List Nat}

/-! ## The braces that are looked at -/

/-- The braces of a text at byte `offset`, each as a fragment. -/
def bracesIn (offset : Nat) : List Char → List Fragment
  | [] => []
  | c :: cs =>
    let rest := bracesIn (offset + c.utf8Size) cs
    if c = '{' ∨ c = '}' then ⟨[c], .between offset (offset + 1)⟩ :: rest else rest

/-- The braces of lines, the first of them at byte `offset`, without those that are passed over. -/
def bracesOfLines (offset : Nat) : List (List Char) → List Fragment
  | [] => []
  | line :: lines =>
    (if isSkipped (trim line) then [] else bracesIn offset line) ++
      bracesOfLines (offset + byteLength line + 1) lines

/-- The braces of a source that repair looks at. -/
def countedBraces (source : List Char) : List Fragment := bracesOfLines 0 (sourceLines source).1

/-- The byte offsets of fragments. -/
def starts (fs : List Fragment) : List Nat := fs.map (·.span.start)

/-- Open blocks are found, with secondary labels at the byte offsets `ps`. -/
def ReportsOpen (source : List Char) (ps : List Nat) : Prop :=
  ∃ d ∈ (analyze source).diagnostics, d.finding = some .unclosedBlock ∧
    (d.labels.filter fun l => !l.primary).map (·.span.start) = ps

theorem leftOpen_append (opened as bs : List Fragment) :
    leftOpen opened (as ++ bs) = leftOpen (leftOpen opened as) bs := by
  induction as generalizing opened with
  | nil => rfl
  | cons a as ih => exact ih _

theorem openAfter_eq (offset : Nat) (opened : List Fragment) (cs : List Char) :
    openAfter offset (starts opened) cs = starts (leftOpen opened (bracesIn offset cs)) := by
  induction cs generalizing offset opened with
  | nil => rfl
  | cons c cs ih =>
    by_cases ho : c = '{'
    · exact ho ▸ ih _ (⟨['{'], .between offset (offset + 1)⟩ :: opened)
    · by_cases hc : c = '}'
      · have htail : (starts opened).tail = starts opened.tail := (List.map_tail ..).symm
        subst hc
        exact (congrArg (openAfter _ · cs) htail).trans (ih _ opened.tail)
      · rw [openAfter, bracesIn, if_neg ho, if_neg hc, if_neg (by simp [ho, hc]), ih]

theorem opened_repairLines (offset : Nat) (opened : List Fragment) (lines : List (List Char)) :
    (repairLines offset (starts opened) lines).opened =
      starts (leftOpen opened (bracesOfLines offset lines)) := by
  induction lines generalizing offset opened with
  | nil => rfl
  | cons line lines ih =>
    have hline : openAfterLine offset (starts opened) line = starts (leftOpen opened
        (if isSkipped (trim line) then [] else bracesIn offset line)) := by
      rw [openAfterLine, openAfter_eq]
      split <;> rfl
    rw [bracesOfLines, leftOpen_append, ← ih, ← hline]
    rfl

/-- The braces that are open at the end are those without a partner. -/
theorem opened_eq (source : List Char) : (repairLines 0 [] (sourceLines source).1).opened.reverse =
    starts (unpaired (countedBraces source)) := by
  have hopened := opened_repairLines 0 [] (sourceLines source).1
  rw [leftOpen_eq, List.drop_nil, List.append_nil] at hopened
  rw [countedBraces, ← List.reverse_reverse (unpaired _), starts, List.map_reverse]
  exact congrArg List.reverse hopened

/-! ## What is found -/

theorem finding_ne_of_mem_diagnostics {opened : List Nat} {lines : List (List Char)}
    {d : Diagnostic} (h : d ∈ (repairLines offset opened lines).diagnostics) :
    d.finding ≠ some .unclosedBlock := by
  obtain ⟨before, line, after, -, hd⟩ := mem_diagnostics_iff.mp h
  have hrepaired := repaired_repairLine (offset + offsetAfter before) line
  generalize (repairLine (offset + offsetAfter before) line).1 = ds,
    (repairLine (offset + offsetAfter before) line).2 = line' at hd hrepaired
  cases hrepaired with
  | kept => cases hd
  | terminated | compared =>
    rw [List.mem_singleton.mp hd]
    exact fun hkind => nomatch hkind

theorem secondary_unclosedBlock (length : Nat) (opened : List Nat) :
    ((unclosedBlock length opened).labels.filter fun l => !l.primary).map (·.span.start) =
      opened := by
  simp [unclosedBlock, List.filter_map, Function.comp_def]

/-- The open blocks that are found are the braces without a partner among those looked at. -/
theorem reportsOpen_iff : ReportsOpen source ps ↔
    ps ≠ [] ∧ ps = starts (unpaired (countedBraces source)) := by
  rw [← opened_eq]
  obtain ⟨cs, z, rfl, hz⟩ := exists_lastBreak source
  rw [sourceLines_eq hz]
  simp only [ReportsOpen, diagnostics_eq hz, List.mem_append]
  generalize (repairLines 0 [] (Text.lines cs)).opened = opened
  constructor
  · rintro ⟨d, hd | hd, hkind, hps⟩
    · exact absurd hkind (finding_ne_of_mem_diagnostics hd)
    · split at hd
      · cases hd
      next hopened =>
        rw [List.mem_singleton.mp hd, secondary_unclosedBlock] at hps
        exact ⟨hps ▸ List.reverse_ne_nil_iff.mpr hopened, hps.symm⟩
  · rintro ⟨hps, rfl⟩
    rw [if_neg (List.reverse_ne_nil_iff.mp hps)]
    exact ⟨_, .inr (List.mem_singleton_self _), rfl, secondary_unclosedBlock _ _⟩

/-! ## Brace fragments -/

/-- Braces that are looked at lie in the text, in order. -/
theorem pairwise_bracesIn (offset : Nat) (cs : List Char) :
    (∀ f ∈ bracesIn offset cs, offset ≤ f.span.start ∧ f.span.start < offset + byteLength cs) ∧
    (bracesIn offset cs).Pairwise fun f g => f.span.start < g.span.start := by
  induction cs generalizing offset with
  | nil => simp [bracesIn]
  | cons c cs ih =>
    obtain ⟨hwithin, hpairwise⟩ := ih (offset + c.utf8Size)
    have hpos := c.utf8Size_pos
    have hrest : ∀ f ∈ bracesIn (offset + c.utf8Size) cs,
        offset < f.span.start ∧ f.span.start < offset + byteLength (c :: cs) := by
      intro f hf
      have := hwithin f hf
      rw [Text.byteLength_cons]
      omega
    rw [bracesIn]
    split
    · refine ⟨List.forall_mem_cons.mpr ⟨⟨Nat.le_refl _, ?_⟩, fun f hf => ?_⟩,
        .cons (fun f hf => (hrest f hf).1) hpairwise⟩
      · rw [Text.byteLength_cons, Span.start_between]
        omega
      · exact ⟨(hrest f hf).1.le, (hrest f hf).2⟩
    · exact ⟨fun f hf => ⟨(hrest f hf).1.le, (hrest f hf).2⟩, hpairwise⟩

theorem pairwise_bracesOfLines (offset : Nat) (lines : List (List Char)) :
    (∀ f ∈ bracesOfLines offset lines, offset ≤ f.span.start) ∧
    (bracesOfLines offset lines).Pairwise fun f g => f.span.start < g.span.start := by
  induction lines generalizing offset with
  | nil => simp [bracesOfLines]
  | cons line lines ih =>
    obtain ⟨hrest, hpairwise⟩ := ih (offset + byteLength line + 1)
    have hline : (∀ f ∈ if isSkipped (trim line) then [] else bracesIn offset line,
        offset ≤ f.span.start ∧ f.span.start < offset + byteLength line) ∧
        (if isSkipped (trim line) then [] else bracesIn offset line).Pairwise
          fun f g => f.span.start < g.span.start := by
      split
      · simp
      · exact pairwise_bracesIn offset line
    obtain ⟨hwithin, hordered⟩ := hline
    rw [bracesOfLines]
    refine ⟨List.forall_mem_append.mpr ⟨fun f hf => (hwithin f hf).1, fun f hf => ?_⟩,
      List.pairwise_append.mpr ⟨hordered, hpairwise, fun f hf g hg => ?_⟩⟩
    · have := hrest f hf
      omega
    · have := hwithin f hf
      have := hrest g hg
      omega

theorem isBrace_of_mem_bracesIn (cs : List Char) :
    ∀ f ∈ bracesIn offset cs, f.isOpen = true ∨ f.isClose = true := by
  induction cs generalizing offset with
  | nil => simp [bracesIn]
  | cons c cs ih =>
    rw [bracesIn]
    split
    next hc =>
      refine List.forall_mem_cons.mpr ⟨?_, ih⟩
      rcases hc with rfl | rfl
      · exact .inl rfl
      · exact .inr rfl
    next => exact ih

theorem isBrace_of_mem_bracesOfLines (lines : List (List Char)) :
    ∀ f ∈ bracesOfLines offset lines, f.isOpen = true ∨ f.isClose = true := by
  induction lines generalizing offset with
  | nil => simp [bracesOfLines]
  | cons line lines ih =>
    refine List.forall_mem_append.mpr ⟨fun f hf => ?_, ih⟩
    split at hf
    · cases hf
    · exact isBrace_of_mem_bracesIn line f hf

theorem pairwise_tokenize (source : List Char) :
    (tokenize source).Pairwise fun f g => f.span.start < g.span.start := by
  refine (cuts_tokenize source).pairwise.imp_of_mem fun hf _ hle => ?_
  obtain ⟨before, run, after, -, hcut⟩ := exists_cutOut hf
  exact hcut.start_lt_stop.trans_le hle

/-- Where exactly the braces that are looked at are fragments, they are all the brace fragments. -/
theorem countedBraces_eq_filter
    (h : ∀ f : Fragment, f.isOpen = true ∨ f.isClose = true →
      (f ∈ countedBraces source ↔ f ∈ tokenize source)) :
    countedBraces source = (tokenize source).filter fun f => f.isOpen || f.isClose := by
  let before (f g : Fragment) : Prop := f.span.start < g.span.start
  have : Std.Antisymm before := ⟨fun f g hfg hgf => absurd hfg hgf.not_gt⟩
  have : Std.Irrefl before := ⟨fun f => Nat.lt_irrefl _⟩
  -- Both are in the order of their byte offsets, so it is enough that they have the same members.
  refine List.Pairwise.eq_of_mem_iff (r := before) (pairwise_bracesOfLines 0 _).2
    ((pairwise_tokenize source).filter _) fun f => ?_
  rw [List.mem_filter, Bool.or_eq_true]
  constructor
  · intro hf
    have hbrace := isBrace_of_mem_bracesOfLines _ f hf
    exact ⟨(h f hbrace).mp hf, hbrace⟩
  · rintro ⟨hf, hbrace⟩
    exact (h f hbrace).mpr hf

/-- **Open blocks.** The open blocks that are found are the braces without a partner among the
braces that repair looks at. These are the brace fragments without a partner if and only if the two
ways of matching leave the same braces open, which they do where exactly the braces that repair
looks at are fragments. -/
theorem unclosed_eq_unpaired_iff (source : List Char) :
    (∀ ps, ReportsOpen source ps ↔
      ps ≠ [] ∧ ps = starts (unpaired (countedBraces source))) ∧
    ((∀ ps, ReportsOpen source ps ↔ ps ≠ [] ∧ ps = starts (unpaired (tokenize source))) ↔
      starts (unpaired (countedBraces source)) = starts (unpaired (tokenize source))) ∧
    ((∀ f : Fragment, f.isOpen = true ∨ f.isClose = true →
        (f ∈ countedBraces source ↔ f ∈ tokenize source)) →
      ∀ ps, ReportsOpen source ps ↔ ps ≠ [] ∧ ps = starts (unpaired (tokenize source))) := by
  have hsame : (∀ ps, ReportsOpen source ps ↔
      ps ≠ [] ∧ ps = starts (unpaired (tokenize source))) ↔
      starts (unpaired (countedBraces source)) = starts (unpaired (tokenize source)) := by
    simp only [reportsOpen_iff]
    constructor
    · intro h
      by_contra hne
      by_cases hnil : starts (unpaired (countedBraces source)) = []
      · have htokens : starts (unpaired (tokenize source)) ≠ [] := fun hnil' =>
          hne (hnil.trans hnil'.symm)
        exact hne ((h _).mpr ⟨htokens, rfl⟩).2.symm
      · exact hne ((h _).mp ⟨hnil, rfl⟩).2
    · intro h ps
      rw [h]
  refine ⟨fun ps => reportsOpen_iff, hsame, fun h => hsame.mpr ?_⟩
  rw [countedBraces_eq_filter h, unpaired_filter]

/-- The inner block is closed, the outer one is not. -/
example :
    let source := "while (a) \x7b\n  if (b) \x7b\n    x = 1;\n  \x7d\n".toList
    countedBraces source = (tokenize source).filter (fun f => f.isOpen || f.isClose) ∧
    starts (unpaired (countedBraces source)) = [10] := by
  decide +kernel

/-- A brace in a comment is taken for one that opens a block: no fragment is a brace. -/
theorem reportsOpen_comment :
    let source := "/* a\n  b \x7b\n*/".toList
    ReportsOpen source [9] ∧ tokenize source = [] ∧
    ¬ ∀ ps, ReportsOpen source ps ↔ ps ≠ [] ∧ ps = starts (unpaired (tokenize source)) := by
  intro source
  have htokens : tokenize source = [] := by decide +kernel
  have hfound : ReportsOpen source [9] := reportsOpen_iff.mpr (by decide +kernel)
  refine ⟨hfound, htokens, fun h => ?_⟩
  have hnone := ((h [9]).mp hfound).2
  rw [htokens] at hnone
  cases hnone

end Flowchart.Repair
