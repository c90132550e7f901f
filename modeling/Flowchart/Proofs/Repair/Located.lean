import Flowchart.Proofs.Repair.Unclosed

/-!
# Where findings point

`diagnostics_located`: each label of a finding covers a part of the source. Findings about lines
come first, in the order of the lines; each covers the text of its line without the white space
around it. A finding about open blocks comes last. It points at the end of the source, and at each
of the braces that are open there.

* `Covers`, `CoversLine`: what the span of a label is made of.
* `exists_isLineOf`: the lines of a source stand in it at the offsets that repair counts.
* `covers_of_mem_countedBraces`: an opening brace that repair looks at is a byte of the source.
-/

namespace Flowchart.Repair

open Block
open Text (byteLength isBlankText joinLines nextLines trim)

/-! ## Parts of a source -/

/-- The span holds this part of the source, and nothing else. -/
def Covers (source : List Char) (s : Span) (part : List Char) : Prop :=
  ∃ before after, source = before ++ part ++ after ∧ s.start = byteLength before ∧
    s.stop = byteLength (before ++ part)

/-- A character of the text begins at the byte offset, or the text ends there. -/
def OnBoundary (text : List Char) (offset : Nat) : Prop :=
  ∃ a b, text = a ++ b ∧ offset = byteLength a

/-- The text is a line of the source, between what stands before it and what stands after it. -/
structure IsLineOf (source before line after : List Char) : Prop where
  source_eq : source = before ++ line ++ after
  newline_not_mem : '\n' ∉ line
  begins : before = [] ∨ before.getLast? = some '\n'
  ends : after = [] ∨ after.head? = some '\n'

/-- The span covers a line of the source without the white space around it, and something is
left. -/
def CoversLine (source : List Char) (s : Span) : Prop :=
  ∃ before line after, IsLineOf source before line after ∧ trim line ≠ [] ∧
    ∃ a b, isBlankText a = true ∧ isBlankText b = true ∧ line = a ++ trim line ++ b ∧
      s.start = byteLength (before ++ a) ∧ s.stop = byteLength (before ++ a ++ trim line)

/-- The finding is about a line, which its label covers. -/
structure AtLine (source : List Char) (d : Diagnostic) : Prop where
  finding : d.finding = some .missingSemicolon ∨ d.finding = some .assignmentInCondition
  label : ∃ l, d.labels = [l] ∧ l.primary = true ∧ CoversLine source l.span

/-- The finding is about open blocks. Its primary label is empty, at the end of the source, and the
others cover opening braces, one each, from left to right. -/
structure AtBraces (source : List Char) (d : Diagnostic) : Prop where
  finding : d.finding = some .unclosedBlock
  labels : ∃ l ls, d.labels = l :: ls ∧ l.primary = true ∧
    l.span = .emptyAt (byteLength source) ∧
    (∀ m ∈ ls, m.primary = false ∧ Covers source m.span ['{']) ∧
    ls.Pairwise fun m m' => m.span.start < m'.span.start

variable {source cs z line part : List Char} {s : Span} {d : Diagnostic} {f : Fragment}
  {before lines after : List (List Char)} {offset : Nat} {opened : List Nat}

theorem Covers.onBoundary (h : Covers source s part) : s.start ≤ s.stop ∧
    s.stop ≤ byteLength source ∧ OnBoundary source s.start ∧ OnBoundary source s.stop := by
  obtain ⟨before, after, rfl, hstart, hstop⟩ := h
  refine ⟨s.start_le_stop, ?_, ⟨before, part ++ after, List.append_assoc .., hstart⟩,
    ⟨before ++ part, after, rfl, hstop⟩⟩
  rw [hstop, Text.byteLength_append _ after]
  exact Nat.le_add_right ..

theorem CoversLine.covers (h : CoversLine source s) : ∃ part, Covers source s part := by
  obtain ⟨before, line, after, hline, -, a, b, -, -, htrim, hstart, hstop⟩ := h
  refine ⟨trim line, before ++ a, b ++ after, ?_, hstart, hstop⟩
  conv => lhs; rw [hline.source_eq, htrim]
  simp

theorem AtLine.covers (h : AtLine source d) :
    ∀ l ∈ d.labels, ∃ part, Covers source l.span part := by
  obtain ⟨l, hl, -, hline⟩ := h.label
  rw [hl, List.forall_mem_singleton]
  exact hline.covers

theorem AtBraces.covers (h : AtBraces source d) :
    ∀ l ∈ d.labels, ∃ part, Covers source l.span part := by
  obtain ⟨l, ls, hl, -, hend, hbraces, -⟩ := h.labels
  rw [hl, List.forall_mem_cons]
  refine ⟨⟨[], source, [], ?_⟩, fun m hm => ⟨_, (hbraces m hm).2⟩⟩
  rw [hend]
  simp [Span.emptyAt]

/-! ## Lines in their places -/

theorem begins_joinLines (before : List (List Char)) :
    joinLines (before ++ [[]]) = [] ∨ (joinLines (before ++ [[]])).getLast? = some '\n' := by
  by_cases hbefore : before = []
  · exact .inl (by rw [hbefore, List.nil_append, Text.joinLines_singleton])
  · refine .inr ?_
    rw [Text.joinLines_append hbefore, nextLines, Text.joinLines_singleton]
    simp

theorem ends_nextLines (hz : IsLastBreak cs z) (after : List (List Char)) :
    nextLines after ++ z = [] ∨ (nextLines after ++ z).head? = some '\n' := by
  cases after with
  | nil =>
    rcases hz with rfl | ⟨rfl, -⟩
    · exact .inr rfl
    · exact .inl rfl
  | cons => exact .inr rfl

/-- A line of the source stands in it at the offset after the lines before. -/
theorem exists_isLineOf (hz : IsLastBreak cs z) (h : Text.lines cs = before ++ line :: after) :
    ∃ front back, IsLineOf (cs ++ z) front line back ∧ byteLength front = offsetAfter before := by
  have hcs : cs = joinLines (before ++ [[]]) ++ line ++ nextLines after := by
    rw [← Text.joinLines_append_cons, List.nil_append, ← h, Text.joinLines_lines]
  refine ⟨joinLines (before ++ [[]]), nextLines after ++ z, ⟨?_, ?_, begins_joinLines before,
    ends_nextLines hz after⟩, byteLength_joinLines before []⟩
  · rw [hcs, List.append_assoc]
  · exact Text.newline_not_mem_of_mem_lines cs line (by simp [h])

/-! ## Findings about lines -/

theorem atLine_of_mem (hz : IsLastBreak cs z)
    (h : d ∈ (repairLines 0 [] (Text.lines cs)).diagnostics) : AtLine (cs ++ z) d := by
  obtain ⟨before, line, after, hlines, hd⟩ := mem_diagnostics_iff.mp h
  obtain ⟨front, back, hline, hfront⟩ := exists_isLineOf hz hlines
  rw [Nat.zero_add, ← hfront] at hd
  have hrepaired := repaired_repairLine (byteLength front) line
  generalize (repairLine (byteLength front) line).1 = ds,
    (repairLine (byteLength front) line).2 = line' at hd hrepaired
  have hcovers {a t b : List Char} (ha : isBlankText a = true) (hb : isBlankText b = true)
      (ht : trim t = t) (hne : t ≠ []) (hline : IsLineOf (cs ++ z) front (a ++ t ++ b) back) :
      CoversLine (cs ++ z)
        (.between (byteLength front + byteLength a)
          (byteLength front + byteLength a + byteLength t)) := by
    have htrim : trim (a ++ t ++ b) = t := Text.trim_between ha hb ht
    refine ⟨front, _, back, hline, by rwa [htrim], a, b, ha, hb, by rw [htrim], ?_, ?_⟩
    · simp
    · rw [htrim]
      simp [Nat.add_assoc]
  cases hrepaired with
  | kept => cases hd
  | terminated ha hb ht hskip =>
    obtain rfl := List.mem_singleton.mp hd
    exact ⟨.inl rfl, _, rfl, rfl, hcovers ha hb ht (ne_nil_of_isSkipped hskip) hline⟩
  | compared ha hb ht _ hskip =>
    obtain rfl := List.mem_singleton.mp hd
    exact ⟨.inr rfl, _, rfl, rfl, hcovers ha hb ht (ne_nil_of_isSkipped hskip) hline⟩

/-- At most one label is about a line. -/
theorem pairwise_labels_repairLine (offset : Nat) (line : List Char) :
    ((repairLine offset line).1.flatMap Diagnostic.labels).Pairwise
      fun l m => l.span.start < m.span.start := by
  have hrepaired := repaired_repairLine offset line
  generalize (repairLine offset line).1 = ds, (repairLine offset line).2 = line' at hrepaired
  cases hrepaired with
  | kept => exact .nil
  | terminated | compared => exact List.pairwise_singleton _ _

theorem pairwise_labels_repairLines (offset : Nat) (opened : List Nat)
    (lines : List (List Char)) :
    ((repairLines offset opened lines).diagnostics.flatMap Diagnostic.labels).Pairwise
      fun l m => l.span.start < m.span.start := by
  induction lines generalizing offset opened with
  | nil => exact .nil
  | cons line lines ih =>
    rw [repairLines, List.flatMap_append]
    refine List.pairwise_append.mpr ⟨pairwise_labels_repairLine offset line, ih _ _,
      fun l hl m hm => ?_⟩
    obtain ⟨d, hd, hl⟩ := List.mem_flatMap.mp hl
    obtain ⟨d', hd', hm⟩ := List.mem_flatMap.mp hm
    obtain ⟨before, line', after, -, hd'⟩ := mem_diagnostics_iff.mp hd'
    have hwithin := within_of_mem_repairLine hd l hl
    have hwithin' := within_of_mem_repairLine hd' m hm
    have := l.span.start_le_stop
    omega

/-! ## Braces -/

/-- A brace of a text is a character of it. -/
theorem exists_of_mem_bracesIn (h : f ∈ bracesIn offset cs) : ∃ a c b, cs = a ++ c :: b ∧
    f = ⟨[c], .between (offset + byteLength a) (offset + byteLength a + 1)⟩ := by
  induction cs generalizing offset with
  | nil => cases h
  | cons c cs ih =>
    have hrest (h : f ∈ bracesIn (offset + c.utf8Size) cs) : ∃ a d b, c :: cs = a ++ d :: b ∧
        f = ⟨[d], .between (offset + byteLength a) (offset + byteLength a + 1)⟩ := by
      obtain ⟨a, d, b, rfl, rfl⟩ := ih h
      exact ⟨c :: a, d, b, rfl, by simp [Nat.add_assoc]⟩
    rw [bracesIn] at h
    split at h
    · rcases List.mem_cons.mp h with rfl | h
      · exact ⟨[], c, cs, rfl, rfl⟩
      · exact hrest h
    · exact hrest h

theorem exists_of_mem_bracesOfLines (h : f ∈ bracesOfLines offset lines) :
    ∃ before line after, lines = before ++ line :: after ∧
      f ∈ bracesIn (offset + offsetAfter before) line := by
  induction lines generalizing offset with
  | nil => cases h
  | cons line lines ih =>
    rcases List.mem_append.mp h with h | h
    · split at h
      · cases h
      · exact ⟨[], line, lines, rfl, h⟩
    · obtain ⟨before, line', after, rfl, h⟩ := ih h
      refine ⟨line :: before, line', after, rfl, ?_⟩
      rwa [offsetAfter, ← Nat.add_assoc, ← Nat.add_assoc]

/-- An opening brace that repair looks at is one byte of the source. -/
theorem covers_of_mem_countedBraces (h : f ∈ countedBraces source) (ho : f.isOpen = true) :
    Covers source (.between f.span.start (f.span.start + 1)) ['{'] := by
  obtain ⟨cs, z, rfl, hz⟩ := exists_lastBreak source
  rw [countedBraces, sourceLines_eq hz] at h
  obtain ⟨before, line, after, hlines, h⟩ := exists_of_mem_bracesOfLines h
  obtain ⟨front, back, hline, hfront⟩ := exists_isLineOf hz hlines
  obtain ⟨a, c, b, rfl, rfl⟩ := exists_of_mem_bracesIn h
  obtain rfl : c = '{' := by simpa [Fragment.isOpen] using ho
  have hbrace : '{'.utf8Size = 1 := by decide
  refine ⟨front ++ a, b ++ back, by simp [hline.source_eq], ?_, ?_⟩
  · simp [hfront]
  · simp [hfront, hbrace, Nat.add_assoc]

theorem isOpen_of_mem_unpaired {fs : List Fragment} (h : f ∈ unpaired fs) : f.isOpen = true := by
  induction fs with
  | nil => cases h
  | cons g fs ih =>
    rw [unpaired] at h
    split at h
    next hg =>
      rcases List.mem_cons.mp h with rfl | h
      · exact hg.1
      · exact ih h
    next => exact ih h

theorem unpaired_sublist (fs : List Fragment) : (unpaired fs).Sublist fs := by
  induction fs with
  | nil => exact .slnil
  | cons f fs ih =>
    rw [unpaired]
    split
    · exact ih.cons_cons f
    · exact ih.cons f

/-- The braces that are open at the end of the source. -/
theorem atBraces_unclosedBlock (source : List Char) : AtBraces source
    (unclosedBlock (byteLength source) (starts (unpaired (countedBraces source)))) := by
  refine ⟨rfl, _, _, rfl, rfl, rfl, ?_, ?_⟩
  · simp only [starts, List.map_map, List.forall_mem_map]
    intro f hf
    exact ⟨rfl, covers_of_mem_countedBraces ((unpaired_sublist _).subset hf)
      (isOpen_of_mem_unpaired hf)⟩
  · rw [starts, List.map_map, List.pairwise_map]
    exact (pairwise_bracesOfLines 0 _).2.sublist (unpaired_sublist _)

/-! ## All findings -/

/-- **Where findings point.** Each label of a finding begins and ends between characters of the
source. The findings about lines come first; their labels cover a line each, without the white space
around it, from top to bottom. At most one finding about open blocks comes after them; it points at
the end of the source and at the braces that are open there. -/
theorem diagnostics_located (source : List Char) :
    (∀ d ∈ (analyze source).diagnostics, ∀ l ∈ d.labels,
      l.span.start ≤ l.span.stop ∧ l.span.stop ≤ byteLength source ∧
        OnBoundary source l.span.start ∧ OnBoundary source l.span.stop) ∧
    ∃ slips blocks, (analyze source).diagnostics = slips ++ blocks ∧
      (∀ d ∈ slips, AtLine source d) ∧
      (slips.flatMap Diagnostic.labels).Pairwise (fun l m => l.span.start < m.span.start) ∧
      (∀ d ∈ blocks, AtBraces source d) ∧ blocks.length ≤ 1 := by
  obtain ⟨cs, z, rfl, hz⟩ := exists_lastBreak source
  have hopened := opened_eq (cs ++ z)
  rw [sourceLines_eq hz] at hopened
  have hlines : ∀ d ∈ (repairLines 0 [] (Text.lines cs)).diagnostics, AtLine (cs ++ z) d :=
    fun d hd => atLine_of_mem hz hd
  obtain ⟨blocks, hdiagnostics, hblocks, hone⟩ : ∃ blocks, (analyze (cs ++ z)).diagnostics =
      (repairLines 0 [] (Text.lines cs)).diagnostics ++ blocks ∧
      (∀ d ∈ blocks, AtBraces (cs ++ z) d) ∧ blocks.length ≤ 1 := by
    refine ⟨_, diagnostics_eq hz, ?_⟩
    split
    · simp
    · rw [hopened]
      simpa using atBraces_unclosedBlock (cs ++ z)
  refine ⟨?_, _, blocks, hdiagnostics, hlines, pairwise_labels_repairLines 0 [] _, hblocks, hone⟩
  rw [hdiagnostics, List.forall_mem_append]
  refine ⟨fun d hd l hl => ?_, fun d hd l hl => ?_⟩
  · obtain ⟨part, hpart⟩ := (hlines d hd).covers l hl
    exact hpart.onBoundary
  · obtain ⟨part, hpart⟩ := (hblocks d hd).covers l hl
    exact hpart.onBoundary

/-- Two lines with white space at their ends that takes more than one byte or is part of a line
break, and a block that is open. -/
example : ((analyze "\u00e9\u00a0\n  y = 1 \r\nif (x) \x7b".toList).diagnostics.flatMap
    Diagnostic.labels).map (fun l => (l.span.start, l.span.stop)) =
      [(0, 2), (7, 12), (23, 23), (22, 23)] := by
  decide +kernel

end Flowchart.Repair
