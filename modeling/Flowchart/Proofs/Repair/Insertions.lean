import Flowchart.Proofs.Repair.Line

/-!
# What repair puts in

Each finding of repair proposes to put one text in at one place of the source (`Proposes`).
`fixed_eq_insertAll`: the repaired text is the source with these texts put in, and nothing else.

* `insertAll`, `deleteAll`: texts put in at byte offsets of another text, and taken out again.
* `Carries`: a part of the source is repaired by insertions into it. `exists_carries_line` is
  about one line, `Carries.nextLine` puts a line before others, `exists_carries` is about all.
* `onePerLine_of_pairwise`: insertions with line breaks between them are on lines of their own.
-/

namespace Flowchart.Repair

open Text (byteLength joinLines nextLines)

/-! ## Insertions -/

/-- A text to put in at a byte offset of the source, and the finding that proposes it. -/
structure Insertion where
  finding : Finding
  offset : Nat
  text : List Char
deriving DecidableEq, Repr

/-- What is put in at a byte offset, first to last. -/
def insertedAt (insertions : List Insertion) (offset : Nat) : List Char :=
  (insertions.filter (·.offset = offset)).flatMap (·.text)

/-- The text at byte `offset` of the source with the insertions put in. -/
def insertAll (insertions : List Insertion) (offset : Nat) : List Char → List Char
  | [] => insertedAt insertions offset
  | c :: cs => insertedAt insertions offset ++ c :: insertAll insertions (offset + c.utf8Size) cs

/-- The text, at byte `offset` of the source, with the insertions taken out. -/
def deleteAll (insertions : List Insertion) (offset : Nat) (text : List Char) : List Char :=
  match _ : text.drop (insertedAt insertions offset).length with
  | [] => []
  | c :: cs => c :: deleteAll insertions (offset + c.utf8Size) cs
termination_by text.length
decreasing_by
  have hlength := congrArg List.length ‹_ = c :: cs›
  rw [List.length_drop, List.length_cons] at hlength
  omega

section Insert

variable {insertions insertions' : List Insertion} {offset : Nat} {text z : List Char}

theorem insertedAt_append (insertions insertions' : List Insertion) (offset : Nat) :
    insertedAt (insertions ++ insertions') offset =
      insertedAt insertions offset ++ insertedAt insertions' offset := by
  simp [insertedAt]

theorem insertedAt_eq_nil (h : ∀ i ∈ insertions, i.offset ≠ offset) :
    insertedAt insertions offset = [] := by
  rw [insertedAt, List.filter_eq_nil_iff.mpr (by simpa using h), List.flatMap_nil]

theorem insertAll_nil (offset : Nat) (text : List Char) : insertAll [] offset text = text := by
  induction text generalizing offset with
  | nil => rfl
  | cons c text ih => rw [insertAll, ih]; rfl

/-- What is taken out again after it was put in. -/
theorem deleteAll_insertAll (insertions : List Insertion) (offset : Nat) (text : List Char) :
    deleteAll insertions offset (insertAll insertions offset text) = text := by
  induction text generalizing offset with
  | nil =>
    rw [deleteAll]
    split
    next => rfl
    next h => simp [insertAll] at h
  | cons c text ih =>
    rw [deleteAll]
    split
    next h => simp [insertAll] at h
    next h =>
      rw [insertAll, List.drop_left] at h
      obtain ⟨rfl, rfl⟩ := List.cons.inj h
      rw [ih]

/-- Only the insertions within the text matter. -/
theorem insertAll_congr (h : ∀ at', offset ≤ at' → at' ≤ offset + byteLength text →
    insertedAt insertions at' = insertedAt insertions' at') :
    insertAll insertions offset text = insertAll insertions' offset text := by
  induction text generalizing offset with
  | nil => exact h offset le_rfl (Nat.le_add_right _ _)
  | cons c text ih =>
    rw [Text.byteLength_cons] at h
    have hrest : insertAll insertions (offset + c.utf8Size) text =
        insertAll insertions' (offset + c.utf8Size) text :=
      ih fun at' hle hlt => h at' (by omega) (by omega)
    rw [insertAll, insertAll, hrest, h offset le_rfl (by omega)]

theorem insertAll_append_left (h : ∀ i ∈ insertions', offset + byteLength text < i.offset) :
    insertAll (insertions ++ insertions') offset text = insertAll insertions offset text := by
  refine insertAll_congr fun at' _ hle => ?_
  have hlater : insertedAt insertions' at' = [] := insertedAt_eq_nil fun i hi => by
    have := h i hi
    omega
  rw [insertedAt_append, hlater, List.append_nil]

theorem insertAll_append_right (h : ∀ i ∈ insertions, i.offset < offset) :
    insertAll (insertions ++ insertions') offset text = insertAll insertions' offset text := by
  refine insertAll_congr fun at' hle _ => ?_
  have hearlier : insertedAt insertions at' = [] := insertedAt_eq_nil fun i hi => by
    have := h i hi
    omega
  rw [insertedAt_append, hearlier, List.nil_append]

theorem insertAll_of_lt (h : ∀ i ∈ insertions, i.offset < offset) :
    insertAll insertions offset text = text := by
  rw [← List.append_nil insertions, insertAll_append_right h, insertAll_nil]

theorem insertAll_append_cons (insertions : List Insertion) (offset : Nat) (a : List Char)
    (c : Char) (b : List Char) : insertAll insertions offset (a ++ c :: b) =
      insertAll insertions offset a ++
        c :: insertAll insertions (offset + byteLength a + c.utf8Size) b := by
  induction a generalizing offset with
  | nil => rfl
  | cons d a ih =>
    rw [List.cons_append, insertAll, ih, insertAll, Text.byteLength_cons, List.append_assoc,
      List.cons_append, Nat.add_assoc offset]

/-- An insertion at the end of the text. -/
theorem insertAll_concat (finding : Finding) (insertions : List Insertion) (offset : Nat)
    (text w : List Char) :
    insertAll (insertions ++ [⟨finding, offset + byteLength text, w⟩]) offset text =
      insertAll insertions offset text ++ w := by
  induction text generalizing offset with
  | nil => rw [insertAll, insertAll, insertedAt_append]; simp [insertedAt]
  | cons c text ih =>
    have hlater : insertedAt [⟨finding, offset + byteLength (c :: text), w⟩] offset = [] := by
      refine insertedAt_eq_nil fun i hi => ?_
      obtain rfl := List.mem_singleton.mp hi
      have := c.utf8Size_pos
      simp only [Text.byteLength_cons]
      omega
    rw [insertAll, insertedAt_append, hlater, List.append_nil, Text.byteLength_cons,
      ← Nat.add_assoc, ih, insertAll, List.append_assoc, List.cons_append]

theorem insertAll_singleton (finding : Finding) (offset : Nat) (a w b : List Char) :
    insertAll [⟨finding, offset + byteLength a, w⟩] offset (a ++ b) = a ++ w ++ b := by
  have hend := insertAll_concat finding [] offset a w
  rw [List.nil_append, insertAll_nil] at hend
  cases b with
  | nil => rw [List.append_nil, List.append_nil, hend]
  | cons c b =>
    rw [insertAll_append_cons, hend, insertAll_of_lt]
    have := c.utf8Size_pos
    simpa using this

/-- Nothing is put in after the line break at the end. -/
theorem insertAll_append_break (hz : IsLastBreak text z)
    (h : ∀ i ∈ insertions, i.offset ≤ offset + byteLength text) :
    insertAll insertions offset (text ++ z) = insertAll insertions offset text ++ z := by
  rcases hz with rfl | ⟨rfl, -⟩
  · have hend : insertAll insertions (offset + byteLength text + '\n'.utf8Size) [] = [] := by
      refine insertAll_of_lt fun i hi => ?_
      have := h i hi
      have := '\n'.utf8Size_pos
      omega
    rw [insertAll_append_cons, hend]
  · rw [List.append_nil, List.append_nil]

end Insert

/-! ## Proposals -/

/-- What a finding about the source proposes to put in: a semicolon at the end of its label, an
equals sign after the first one of its label, or, before the line break at the end of the source,
as many closing braces on lines of their own as its first label asks for. -/
inductive Proposes (source : List Char) : Diagnostic → Insertion → Prop where
  | semicolon {d : Diagnostic} (before part after : List Char)
      (finding : d.finding = some .missingSemicolon)
      (spans : d.labels.map (·.span) = [.between (byteLength before) (byteLength (before ++ part))])
      (source_eq : source = before ++ part ++ after) :
      Proposes source d ⟨.missingSemicolon, byteLength (before ++ part), [';']⟩
  | equals {d : Diagnostic} (before x y after : List Char)
      (finding : d.finding = some .assignmentInCondition)
      (spans : d.labels.map (·.span) =
        [.between (byteLength before) (byteLength (before ++ (x ++ '=' :: y)))])
      (source_eq : source = before ++ (x ++ '=' :: y) ++ after) (first : '=' ∉ x) :
      Proposes source d ⟨.assignmentInCondition, byteLength (before ++ x ++ ['=']), ['=']⟩
  | braces {d : Diagnostic} (count : Nat) (before z : List Char)
      (finding : d.finding = some .unclosedBlock)
      (remark : d.labels.head?.map (·.message) =
        some ("expected " ++ toString count ++ " more `\x7d` before end of input"))
      (opened : d.labels.length = count + 1)
      (source_eq : source = before ++ z) (last : IsLastBreak before z) :
      Proposes source d
        ⟨.unclosedBlock, byteLength before, (List.replicate count ['\n', '}']).flatten⟩

/-- A line break of the source stands between the places of two insertions. -/
def BreakBetween (source : List Char) (i j : Insertion) : Prop :=
  ∃ before after, source = before ++ '\n' :: after ∧
    i.offset ≤ byteLength before ∧ byteLength before < j.offset

/-- No two of the insertions have their places on one line of the source. -/
def OnePerLine (source : List Char) (insertions : List Insertion) : Prop :=
  ∀ before line after, source = before ++ line ++ after → '\n' ∉ line →
    (insertions.filter fun i => byteLength before ≤ i.offset ∧
      i.offset ≤ byteLength before + byteLength line).length ≤ 1

theorem mem_of_byteLength_lt {before line after front back : List Char} {c : Char}
    (h : before ++ line ++ after = front ++ c :: back)
    (hfrom : byteLength before ≤ byteLength front)
    (hto : byteLength front < byteLength before + byteLength line) : c ∈ line := by
  have hpos (d : Char) (ds : List Char) : 0 < byteLength (d :: ds) := by
    have := d.utf8Size_pos
    rw [Text.byteLength_cons]
    omega
  obtain ⟨x, rfl, hx⟩ : ∃ x, front = before ++ x ∧ line ++ after = x ++ c :: back := by
    rw [List.append_assoc] at h
    rcases List.append_eq_append_iff.mp h with ⟨x, hfront, hline⟩ | ⟨x, rfl, hline⟩
    · exact ⟨x, hfront, hline⟩
    · cases x with
      | nil => exact ⟨[], by simp, by simpa using hline.symm⟩
      | cons d x =>
        have := hpos d x
        rw [Text.byteLength_append] at hfrom
        omega
  rw [Text.byteLength_append] at hto
  rcases List.append_eq_append_iff.mp hx with ⟨y, rfl, -⟩ | ⟨y, rfl, hy⟩
  · rw [Text.byteLength_append] at hto
    omega
  · cases y with
    | nil => simp at hto
    | cons d y =>
      obtain ⟨rfl, -⟩ := List.cons.inj hy
      simp

theorem length_le_one_of_pairwise {R : Insertion → Insertion → Prop} {insertions : List Insertion}
    (h : insertions.Pairwise R) (hno : ∀ i ∈ insertions, ∀ j ∈ insertions, ¬R i j) :
    insertions.length ≤ 1 := by
  match insertions with
  | [] => exact Nat.zero_le 1
  | [_] => exact Nat.le_refl 1
  | i :: j :: _ =>
    have hij := (List.pairwise_cons.mp h).1 j List.mem_cons_self
    exact absurd hij (hno i List.mem_cons_self j (List.mem_cons_of_mem i List.mem_cons_self))

theorem onePerLine_of_pairwise {source : List Char} {insertions : List Insertion}
    (h : insertions.Pairwise (BreakBetween source)) : OnePerLine source insertions := by
  intro before line after hsource hline
  refine length_le_one_of_pairwise (h.filter _) fun i hi j hj hbreak => hline ?_
  obtain ⟨front, back, hsplit, hle, hlt⟩ := hbreak
  have hi := List.of_mem_filter hi
  have hj := List.of_mem_filter hj
  rw [decide_eq_true_eq] at hi hj
  exact mem_of_byteLength_lt (hsource ▸ hsplit) (by omega) (by omega)

/-! ## Repair by insertions -/

/-- The part `text` of the source at byte `offset` is repaired to `text'` by insertions into it,
which the findings `ds` propose, at most one for each line. -/
structure Carries (source : List Char) (offset : Nat) (text text' : List Char)
    (ds : List Diagnostic) (insertions : List Insertion) : Prop where
  proposes : List.Forall₂ (Proposes source) ds insertions
  slips : ∀ i ∈ insertions, i.finding ≠ .unclosedBlock
  inside : ∀ i ∈ insertions, offset ≤ i.offset ∧ i.offset ≤ offset + byteLength text
  apart : insertions.Pairwise (BreakBetween source)
  text_eq : insertAll insertions offset text = text'

section Carries

variable {source before after line line' rest rest' : List Char} {ds ds' : List Diagnostic}
  {insertions insertions' : List Insertion} {lines : List (List Char)}

theorem Carries.singleton {offset at' : Nat} {text text' w : List Char} {d : Diagnostic}
    {finding : Finding} (hproposes : Proposes source d ⟨finding, at', w⟩)
    (hslip : finding ≠ .unclosedBlock) (hat : offset ≤ at' ∧ at' ≤ offset + byteLength text)
    (htext : insertAll [⟨finding, at', w⟩] offset text = text') :
    Carries source offset text text' [d] [⟨finding, at', w⟩] where
  proposes := .cons hproposes .nil
  slips := by simpa using hslip
  inside := by simpa using hat
  apart := List.pairwise_singleton _ _
  text_eq := htext

/-- One line. -/
theorem exists_carries_line (after : List Char) (h : Repaired (byteLength before) line ds line')
    (hsource : source = before ++ line ++ after) :
    ∃ insertions, Carries source (byteLength before) line line' ds insertions := by
  cases h with
  | kept => exact ⟨[], .nil, by simp, by simp, .nil, insertAll_nil _ _⟩
  | @terminated a t b =>
    have hproposes : Proposes source
        (missingSemicolon (.between (byteLength before + byteLength a)
          (byteLength before + byteLength a + byteLength t)))
        ⟨.missingSemicolon, byteLength (before ++ a ++ t), [';']⟩ := by
      refine .semicolon (before ++ a) t (b ++ after) rfl ?_ (by simp [hsource])
      simp [missingSemicolon, lineDiagnostic, Nat.add_assoc]
    have hat : byteLength (before ++ a ++ t) = byteLength before + byteLength (a ++ t) := by
      simp
    rw [hat] at hproposes
    refine ⟨_, .singleton hproposes (by decide) ?_ ?_⟩
    · rw [Text.byteLength_append (a ++ t)]
      omega
    · rw [insertAll_singleton]
      simp
  | @compared a x y b _ _ _ hx =>
    have hproposes : Proposes source
        (assignmentInCondition (.between (byteLength before + byteLength a)
          (byteLength before + byteLength a + byteLength (x ++ '=' :: y))))
        ⟨.assignmentInCondition, byteLength (before ++ a ++ x ++ ['=']), ['=']⟩ := by
      refine .equals (before ++ a) x y (b ++ after) rfl ?_ (by simp [hsource]) hx
      simp [assignmentInCondition, lineDiagnostic, Nat.add_assoc]
    have hat : byteLength (before ++ a ++ x ++ ['=']) =
        byteLength before + byteLength (a ++ x ++ ['=']) := by
      simp
    have hsplit : a ++ (x ++ '=' :: y) ++ b = a ++ x ++ ['='] ++ (y ++ b) := by simp
    rw [hat] at hproposes
    rw [hsplit]
    refine ⟨_, .singleton hproposes (by decide) ?_ ?_⟩
    · rw [Text.byteLength_append (a ++ x ++ ['='])]
      omega
    · rw [insertAll_singleton]
      simp

/-- A line and the lines after it. -/
theorem Carries.nextLine (hline : Carries source (byteLength before) line line' ds insertions)
    (hrest : Carries source (byteLength (before ++ line ++ ['\n'])) rest rest' ds' insertions')
    (hsource : source = before ++ (line ++ '\n' :: rest) ++ after) :
    Carries source (byteLength before) (line ++ '\n' :: rest) (line' ++ '\n' :: rest') (ds ++ ds')
      (insertions ++ insertions') := by
  have hbreak : byteLength (before ++ line ++ ['\n']) =
      byteLength before + byteLength line + '\n'.utf8Size := by
    simp [Nat.add_assoc]
  have hpos := '\n'.utf8Size_pos
  rw [hbreak] at hrest
  constructor
  case proposes => exact List.rel_append hline.proposes hrest.proposes
  case slips => exact List.forall_mem_append.mpr ⟨hline.slips, hrest.slips⟩
  case inside =>
    rw [Text.byteLength_append, Text.byteLength_cons]
    refine List.forall_mem_append.mpr ⟨fun i hi => ?_, fun i hi => ?_⟩
    · have := hline.inside i hi
      omega
    · have := hrest.inside i hi
      omega
  case apart =>
    refine List.pairwise_append.mpr ⟨hline.apart, hrest.apart, fun i hi j hj => ?_⟩
    have hi := hline.inside i hi
    have hj := hrest.inside j hj
    refine ⟨before ++ line, rest ++ after, by simp [hsource], ?_, ?_⟩
    all_goals
      rw [Text.byteLength_append]
      omega
  case text_eq =>
    rw [insertAll_append_cons,
      insertAll_append_left fun i hi => by have := hrest.inside i hi; omega,
      insertAll_append_right fun i hi => by have := hline.inside i hi; omega,
      hline.text_eq, hrest.text_eq]

theorem exists_carries (before after : List Char) (opened : List Nat) (hne : lines ≠ [])
    (hsource : source = before ++ joinLines lines ++ after) :
    ∃ insertions, Carries source (byteLength before) (joinLines lines)
      (joinLines (repairLines (byteLength before) opened lines).repaired)
      (repairLines (byteLength before) opened lines).diagnostics insertions := by
  induction lines generalizing before opened with
  | nil => exact absurd rfl hne
  | cons line lines ih =>
    have hline := repaired_repairLine (byteLength before) line
    cases lines with
    | nil =>
      rw [Text.joinLines_singleton] at hsource ⊢
      obtain ⟨insertions, hcarries⟩ := exists_carries_line after hline hsource
      refine ⟨insertions, ?_⟩
      simpa [repairLines, Text.joinLines_singleton] using hcarries
    | cons next lines =>
      rw [Text.joinLines_cons, nextLines] at hsource ⊢
      have hline' : source = before ++ line ++ ('\n' :: joinLines (next :: lines) ++ after) := by
        simp [hsource]
      have hlines : source = (before ++ line ++ ['\n']) ++ joinLines (next :: lines) ++ after := by
        simp [hsource]
      have hoffset : byteLength before + byteLength line + 1 =
          byteLength (before ++ line ++ ['\n']) := by
        rw [Text.byteLength_append, Text.byteLength_append]
        rfl
      obtain ⟨insertions, hcarries⟩ := exists_carries_line _ hline hline'
      obtain ⟨insertions', hrest⟩ := ih _ (openAfterLine (byteLength before) opened line)
        (List.cons_ne_nil _ _) hlines
      refine ⟨insertions ++ insertions', ?_⟩
      rw [repairLines, hoffset]
      exact hcarries.nextLine hrest hsource

end Carries

/-- The insertion of the closing braces, if blocks are open. -/
theorem exists_closing {cs z : List Char} (hz : IsLastBreak cs z) (opened : List Nat) :
    ∃ closing, List.Forall₂ (Proposes (cs ++ z))
      (if opened = [] then [] else [unclosedBlock (byteLength (cs ++ z)) opened.reverse]) closing ∧
    (∀ i ∈ closing, i.finding = .unclosedBlock ∧ i.offset = byteLength cs) ∧
    ∀ insertions, insertAll (insertions ++ closing) 0 cs =
      insertAll insertions 0 cs ++ nextLines (List.replicate opened.length ['}']) := by
  by_cases hopened : opened = []
  · rw [if_pos hopened, hopened]
    exact ⟨[], .nil, by simp, fun insertions => by simp [nextLines]⟩
  · rw [if_neg hopened]
    have hproposes : Proposes (cs ++ z) (unclosedBlock (byteLength (cs ++ z)) opened.reverse)
        ⟨.unclosedBlock, byteLength cs, (List.replicate opened.length ['\n', '}']).flatten⟩ :=
      .braces opened.length cs z rfl (by simp [unclosedBlock]) (by simp [unclosedBlock]) rfl hz
    refine ⟨_, .cons hproposes .nil, by simp, fun insertions => ?_⟩
    have hend := insertAll_concat .unclosedBlock insertions 0 cs
      (List.replicate opened.length ['\n', '}']).flatten
    rw [Nat.zero_add] at hend
    rw [hend, Text.nextLines_replicate]

/-- **What repair puts in.** Each finding proposes an insertion. The repaired text is the source
with all of them, and taking them out gives the source back; semicolons and equals signs go to
different lines. -/
theorem fixed_eq_insertAll (source : List Char) : ∃ insertions,
    List.Forall₂ (Proposes source) (analyze source).diagnostics insertions ∧
    (analyze source).fixed = insertAll insertions 0 source ∧
    deleteAll insertions 0 (analyze source).fixed = source ∧
    OnePerLine source (insertions.filter (·.finding ≠ .unclosedBlock)) ∧
    ((analyze source).diagnostics = [] → (analyze source).fixed = source) := by
  obtain ⟨cs, z, rfl, hz⟩ := exists_lastBreak source
  have hsource : cs ++ z = [] ++ joinLines (Text.lines cs) ++ z := by
    rw [Text.joinLines_lines, List.nil_append]
  obtain ⟨insertions, hcarries⟩ := exists_carries [] z [] (Text.lines_ne_nil cs) hsource
  rw [Text.joinLines_lines] at hcarries
  obtain ⟨closing, hclosing, hplace, hbraces⟩ :=
    exists_closing hz (repairLines 0 [] (Text.lines cs)).opened
  have hproposes : List.Forall₂ (Proposes (cs ++ z)) (analyze (cs ++ z)).diagnostics
      (insertions ++ closing) := by
    rw [diagnostics_eq hz]
    exact List.rel_append hcarries.proposes hclosing
  have hinside : ∀ i ∈ insertions ++ closing, i.offset ≤ 0 + byteLength cs := by
    refine List.forall_mem_append.mpr ⟨fun i hi => (hcarries.inside i hi).2, fun i hi => ?_⟩
    rw [(hplace i hi).2, Nat.zero_add]
  have hfixed : (analyze (cs ++ z)).fixed = insertAll (insertions ++ closing) 0 (cs ++ z) := by
    rw [insertAll_append_break hz hinside, hbraces, fixed_eq hz,
      Text.joinLines_append (repaired_ne_nil cs)]
    exact congrArg (· ++ _ ++ z) hcarries.text_eq.symm
  have hslips : (insertions ++ closing).filter (·.finding ≠ .unclosedBlock) = insertions := by
    rw [List.filter_append, List.filter_eq_self.mpr (by simpa using hcarries.slips),
      List.filter_eq_nil_iff.mpr (by simpa using fun i hi => (hplace i hi).1), List.append_nil]
  refine ⟨insertions ++ closing, hproposes, hfixed, ?_, ?_, fun hnone => ?_⟩
  · rw [hfixed, deleteAll_insertAll]
  · rw [hslips]
    exact onePerLine_of_pairwise hcarries.apart
  · rw [hnone, List.forall₂_nil_left_iff] at hproposes
    rw [hfixed, hproposes, insertAll_nil]

/-- One of each: at the end of the first line, in the second, and before the last line break. -/
example :
    let source := "x = 1\nif (x = 2) \x7b\n  y = 3;\n".toList
    (analyze source).fixed = insertAll [⟨.missingSemicolon, 5, [';']⟩,
      ⟨.assignmentInCondition, 13, ['=']⟩, ⟨.unclosedBlock, 27, ['\n', '}']⟩] 0 source := by
  decide +kernel

end Flowchart.Repair
