import Flowchart.Proofs.Block.Reads
import Flowchart.Proofs.Code.Rules

/-!
# Printed code is read back

`ofSource_printed`: the program of a text that shows structured code has the nodes of the code.

* `Head`: what a reader sees of a statement from its first line.
* `reads_simple`, `reads_enclosed`: a simple statement and a block between braces are read as such.
* `Code.reads_lines`: so is every statement, by induction on it.
-/

namespace Flowchart

open Block

/-! ## First lines -/

/-- The line is no brace and no `else`, and it prints or reads if the statement does. -/
structure Head (c : Code) (line : List Char) : Prop where
  not_open : line ≠ ['{']
  not_close : line ≠ ['}']
  not_else : line ≠ "else".toList
  isOutput_eq : Statement.isOutput line = c.isOutput
  isInput_eq : Statement.isInput line = c.isInput

theorem Head.of_word {c : Code} {w t : List Char} {s : Char} (hne : w ≠ [])
    (hw : w.all isWordChar = true) (hs : isWordChar s = false)
    (hout : decide (w = "printf".toList) = c.isOutput)
    (hin : decide (w = "scanf".toList) = c.isInput) : Head c (w ++ s :: t) := by
  obtain ⟨d, w, rfl⟩ := List.exists_cons_of_ne_nil hne
  have hd := List.all_eq_true.mp hw d List.mem_cons_self
  refine ⟨?_, ?_, ?_, ?_, ?_⟩
  · intro h
    rw [List.cons_append, List.cons.injEq] at h
    rw [h.1] at hd
    exact absurd hd (by decide)
  · intro h
    rw [List.cons_append, List.cons.injEq] at h
    rw [h.1] at hd
    exact absurd hd (by decide)
  · intro h
    have hmem : s ∈ "else".toList := by simp [← h]
    have hword : "else".toList.all isWordChar = true := by decide
    rw [List.all_eq_true.mp hword s hmem] at hs
    cases hs
  · rw [isOutput_word hw hs, hout]
  · rw [isInput_word hw hs, hin]

/-- A statement of another kind neither prints nor reads, and its semicolon tells it from braces. -/
theorem head_process {text : List Char} (h : (Simple.process text).Valid) :
    Head (.simple (.process text)) (Simple.process text).line := by
  have hlast : (text ++ [';']).getLast? = some ';' := List.getLast?_concat
  obtain ⟨-, -, hrule⟩ := h
  have hcalls : Statement.isOutput (text ++ [';']) = false ∧
      Statement.isInput (text ++ [';']) = false := by
    unfold Rule.of at hrule
    grind
  refine ⟨?_, ?_, ?_, hcalls.1, hcalls.2⟩ <;>
    · intro hline
      rw [show text ++ [';'] = _ from hline] at hlast
      revert hlast
      decide

theorem head_simple {s : Simple} (h : s.Valid) : Head (.simple s) s.line := by
  cases s with
  | process text => exact head_process h
  | output message =>
    rw [Simple.line_output]
    exact .of_word (by decide) (by decide) (by decide) rfl rfl
  | input target =>
    rw [Simple.line_input]
    exact .of_word (by decide) (by decide) (by decide) rfl rfl
  | stop value =>
    rw [Simple.line_stop]
    exact .of_word (by decide) (by decide) (by decide) rfl rfl

/-- Every statement has a first line, which shows what it is. -/
theorem Code.exists_head {c : Code} (h : c.Valid) :
    ∃ line more, c.lines = line :: more ∧ Head c line := by
  cases c with
  | simple s => exact ⟨s.line, [], by rw [lines], head_simple h⟩
  | loop header body =>
    refine ⟨header.line, enclosed (linesAll body), by rw [lines], ?_⟩
    cases header <;> exact .of_word (by decide) (by decide) (by decide) rfl rfl
  | ifThen condition whenTrue =>
    refine ⟨headed "if" condition, _, by rw [lines], ?_⟩
    exact .of_word (by decide) (by decide) (by decide) rfl rfl
  | ifElse condition whenTrue whenFalse =>
    refine ⟨headed "if" condition, _, by rw [lines], ?_⟩
    exact .of_word (by decide) (by decide) (by decide) rfl rfl

/-! ## Reading -/

section Reading

variable {limit depth : Nat} {f : Fragment} {fs rest out : List Fragment} {ns : List Node}

/-- What comes after a statement is no `else`, and it neither prints nor reads if the statement
prints. -/
def Follows (c : Code) (rest : List Fragment) : Prop :=
  ∀ g ∈ rest.head?, g.isElse = false ∧ (c.isOutput = true →
    Statement.isOutput g.text = false ∧ Statement.isInput g.text = false)

theorem reads_simple {s : Simple} (h : s.Valid) (hf : f.text = s.line)
    (hrest : Follows (.simple s) rest) :
    Reads limit depth (.statement f rest) [s.node] rest := by
  cases s with
  | process text =>
    have hnode := ofProcess_line h
    rw [← hf] at hnode
    rw [← hnode]
    exact .process (of_process h.2.2 hf)
  | output message =>
    have hnext (g : Fragment) (hg : g ∈ rest.head?) := (hrest g hg).2 rfl
    have htake : rest.takeWhile (Statement.isOutput ·.text) = [] := by
      cases rest with
      | nil => rfl
      | cons g gs => simp [hnext g rfl]
    have hdrop : rest.dropWhile (Statement.isOutput ·.text) = rest := by
      cases rest with
      | nil => rfl
      | cons g gs => simp [hnext g rfl]
    have hread : Reads limit depth (.statement f rest) _ _ :=
      .output (of_output hf fun g hg => (hnext g hg).2)
    rwa [htake, hdrop, ofOutputs_line hf h] at hread
  | input target =>
    have hnode := ofInput_line h
    rw [← hf] at hnode
    rw [← hnode]
    exact .input (of_input hf)
  | stop value => exact .stop (of_stop hf)

/-- The block ends right before these fragments; the closing brace, if there is one, is taken. -/
inductive EndsBlock : List Fragment → List Fragment → Prop where
  | nil : EndsBlock [] []
  | close {g : Fragment} {out : List Fragment} (hg : g.isClose = true) : EndsBlock (g :: out) out

theorem EndsBlock.reads (h : EndsBlock rest out) : Reads limit depth (.block rest) [] out := by
  cases h with
  | nil => exact .nil
  | close hg => exact .close hg

/-- A closing brace may follow any statement. -/
theorem EndsBlock.follows (h : EndsBlock rest out) (c : Code) : Follows c rest := by
  cases h with
  | nil => exact fun g hg => by simp at hg
  | @close g out hg =>
    intro g' hg'
    obtain rfl : g = g' := by simpa using hg'
    have htext : g.text = ['}'] := by simpa [Fragment.isClose] using hg
    rw [Fragment.isElse, htext]
    exact ⟨by decide, fun _ => by decide⟩

/-- A block between braces is read as the body of a header. -/
theorem reads_enclosed {lines : List (List Char)} (hlimit : depth + 1 ≤ limit)
    (hfs : texts fs = enclosed lines)
    (hblock : ∀ inner close, texts inner = lines → EndsBlock (close :: rest) rest →
      Reads limit (depth + 1) (.block (inner ++ close :: rest)) ns rest) :
    Reads limit depth (.body f (fs ++ rest)) ns rest := by
  obtain ⟨o, fs, rfl, ho, hfs⟩ := List.map_eq_cons_iff.mp hfs
  obtain ⟨inner, closing, rfl, hinner, hclosing⟩ := List.map_eq_append_iff.mp hfs
  obtain ⟨close, rfl, hclose⟩ := List.map_eq_singleton_iff.mp hclosing
  have hopen : o.isOpen = true := by simp [Fragment.isOpen, ho]
  have hends : EndsBlock (close :: rest) rest := .close (by simp [Fragment.isClose, hclose])
  rw [List.cons_append, List.append_assoc]
  exact .opened hopen hlimit (hblock inner close hinner hends)

/-- The first statement of a sequence, or the end of the block, may follow the statement before. -/
theorem follows_linesAll {c : Code} {cs : List Code} (hcs : Code.ValidAll (c :: cs))
    (hfs : texts fs = Code.linesAll cs) (hend : EndsBlock rest out) : Follows c (fs ++ rest) := by
  cases cs with
  | nil =>
    obtain rfl : fs = [] := List.map_eq_nil_iff.mp hfs
    exact hend.follows c
  | cons d ds =>
    obtain ⟨line, more, hlines, hhead⟩ := Code.exists_head hcs.2.1.1
    rw [Code.linesAll, hlines, List.cons_append] at hfs
    obtain ⟨g, gs, rfl, hg, -⟩ := List.map_eq_cons_iff.mp hfs
    intro g' hg'
    obtain rfl : g = g' := by simpa using hg'
    rw [Fragment.isElse, hg, hhead.isOutput_eq, hhead.isInput_eq]
    exact ⟨beq_eq_false_iff_ne.mpr hhead.not_else, fun hc => hcs.2.2 hc d rfl⟩

namespace Code

mutual

/-- A statement is read as its node, whatever follows it. -/
theorem reads_lines {limit depth : Nat} {c : Code} {f : Fragment} {fs rest : List Fragment}
    (hc : c.Valid) (hlimit : depth + c.depth ≤ limit) (hfs : texts (f :: fs) = c.lines)
    (hrest : Follows c rest) :
    Reads limit depth (.statement f (fs ++ rest)) [c.node] rest := by
  cases c with
  | simple s =>
    rw [lines, texts_cons, List.cons.injEq] at hfs
    obtain rfl : fs = [] := List.map_eq_nil_iff.mp hfs.2
    exact reads_simple hc hfs.1 hrest
  | loop header body =>
    rw [lines, texts_cons, List.cons.injEq] at hfs
    rw [Code.depth] at hlimit
    have hbody : Reads limit depth (.body f (fs ++ rest)) (nodesAll body) rest :=
      reads_enclosed (by omega) hfs.2 fun inner close hinner hends =>
        reads_linesAll hc.2 (by omega) hinner hends
    have hread := Reads.loop (of_loopLine hfs.1) hbody
    rwa [hfs.1, loopCondition_line hc.1] at hread
  | ifThen condition whenTrue =>
    rw [lines, texts_cons, List.cons.injEq] at hfs
    rw [Code.depth] at hlimit
    have hbody : Reads limit depth (.body f (fs ++ rest)) (nodesAll whenTrue) rest :=
      reads_enclosed (by omega) hfs.2 fun inner close hinner hends =>
        reads_linesAll hc.2 (by omega) hinner hends
    have hread := Reads.branch (of_headed_if hfs.1) hbody fun g hg => (hrest g hg).1
    rwa [hfs.1, branchCondition_headed hc.1] at hread
  | ifElse condition whenTrue whenFalse =>
    rw [lines, texts_cons, List.cons.injEq] at hfs
    rw [Code.depth] at hlimit
    obtain ⟨hf, hfs⟩ := hfs
    obtain ⟨fs, more, rfl, htrue, hmore⟩ := List.map_eq_append_iff.mp hfs
    obtain ⟨e, gs, rfl, he, hfalse⟩ := List.map_eq_cons_iff.mp hmore
    have helse : e.isElse = true := by simp [Fragment.isElse, he]
    have hthen : Reads limit depth (.body f (fs ++ e :: (gs ++ rest))) (nodesAll whenTrue)
        (e :: (gs ++ rest)) :=
      reads_enclosed (by omega) htrue fun inner close hinner hends =>
        reads_linesAll hc.2.1 (by omega) hinner hends
    have hother : Reads limit depth (.body f (gs ++ rest)) (nodesAll whenFalse) rest :=
      reads_enclosed (by omega) hfalse fun inner close hinner hends =>
        reads_linesAll hc.2.2 (by omega) hinner hends
    have hread := Reads.branchElse (of_headed_if hf) hthen helse hother
    rw [hf, branchCondition_headed hc.1] at hread
    simpa [node] using hread

/-- A sequence up to the end of its block is read as its nodes. -/
theorem reads_linesAll {limit depth : Nat} {cs : List Code} {fs rest out : List Fragment}
    (hcs : ValidAll cs) (hlimit : depth + depthAll cs ≤ limit) (hfs : texts fs = linesAll cs)
    (hend : EndsBlock rest out) :
    Reads limit depth (.block (fs ++ rest)) (nodesAll cs) out := by
  cases cs with
  | nil =>
    obtain rfl : fs = [] := List.map_eq_nil_iff.mp hfs
    exact hend.reads
  | cons c cs =>
    rw [Code.depthAll] at hlimit
    obtain ⟨fs, gs, rfl, hc, hgs⟩ := List.map_eq_append_iff.mp hfs
    obtain ⟨line, more, hlines, hhead⟩ := exists_head hcs.1
    obtain ⟨f, fs, rfl, hf, -⟩ := List.map_eq_cons_iff.mp (hc.trans hlines)
    have hopen : f.isOpen = false := by
      rw [Fragment.isOpen, hf]
      exact beq_eq_false_iff_ne.mpr hhead.not_open
    have hclose : f.isClose = false := by
      rw [Fragment.isClose, hf]
      exact beq_eq_false_iff_ne.mpr hhead.not_close
    have hstatement : Reads limit depth (.statement f (fs ++ (gs ++ rest))) [c.node] (gs ++ rest) :=
      reads_lines hcs.1 (by omega) hc (follows_linesAll hcs hgs hend)
    have hblock : Reads limit depth (.block (gs ++ rest)) (nodesAll cs) out :=
      reads_linesAll hcs.2.1 (by omega) hgs hend
    rw [List.append_assoc, List.cons_append]
    exact .cons hclose hopen hstatement hblock

end

end Code

end Reading

/-- **Round trip.** A text that shows valid code line by line, with any indentation, is the program
of the nodes of the code, if the code nests no deeper than allowed. -/
theorem ofSource_printed {limit : Nat} {code : List Code} {text : List Char}
    (hvalid : Code.ValidAll code) (hlimit : Code.depthAll code ≤ limit)
    (htext : Printed (Code.linesAll code) text) :
    Program.ofSource limit text = .ok (.ofNodes (Code.nodesAll code)) := by
  have htexts : texts (tokenize text) = Code.linesAll code :=
    texts_tokenize_of_printed htext (Code.isLine_of_mem_linesAll hvalid)
  have hreads : Reads limit 0 (.block (tokenize text)) (Code.nodesAll code) [] := by
    have hdepth : 0 + Code.depthAll code ≤ limit := by omega
    simpa using Code.reads_linesAll hvalid hdepth htexts .nil
  rw [Program.ofSource, Program.ofFragments, reads_block_iff.mpr hreads]
  rfl

/-- A loop that reads a variable, with indentation. -/
theorem ofSource_printed_loop :
    Program.ofSource 1 (Text.joinLines ["x = 1;".toList, "while (x)".toList, ['{'],
      "  scanf(\"%d\", &n);".toList, ['}']]) =
        .ok (.ofNodes [.step .process "x = 1", .loop "x" [.step .io "Input n"]]) := by
  have hcondition : PlainText ['x'] := by
    refine ⟨by simp [markers], by decide, by decide, by decide +kernel, by decide⟩
  have hassign : (Simple.process "x = 1".toList).Valid :=
    ⟨by decide +kernel, by simp; decide, by decide +kernel⟩
  have hread : (Simple.input ['n']).Valid := ⟨by simp, by simp, by simp; decide⟩
  have hbody : Code.ValidAll [.simple (.input ['n'])] := ⟨hread, trivial, fun h => by cases h⟩
  have hvalid : Code.ValidAll [.simple (.process "x = 1".toList),
      .loop (.whileTrue ['x']) [.simple (.input ['n'])]] :=
    ⟨hassign, ⟨⟨hcondition, hbody⟩, trivial, fun h => by cases h⟩, fun h => by cases h⟩
  have htext : Printed (Code.linesAll [.simple (.process "x = 1".toList),
      .loop (.whileTrue ['x']) [.simple (.input ['n'])]])
      ([] ++ "x = 1;".toList ++ '\n' :: ([] ++ headed "while" ['x'] ++ '\n' :: ([] ++ ['{'] ++
        '\n' :: ([' ', ' '] ++ (Simple.input ['n']).line ++ '\n' :: ([] ++ ['}']))))) :=
    .cons rfl (by simp) (.cons rfl (by simp) (.cons rfl (by simp) (.cons rfl (by simp)
      (.last rfl (by simp)))))
  exact ofSource_printed hvalid (by decide) htext

/-- The variable `else` is cut out of its statement, so it is not read back. -/
theorem ofSource_input_else :
    Program.ofSource 64 (Simple.input "else".toList).line = .ok (.ofNodes
      [.step .io "Input Value", .step .process "else", .step .process ")"]) ∧
    Program.ofSource 64 (Simple.input "else".toList).line ≠
      .ok (.ofNodes (Code.nodesAll [.simple (.input "else".toList)])) := by
  have htokens : tokenize (Simple.input "else".toList).line = [
      ⟨"scanf(\"%d\", &".toList, .between 0 13⟩, ⟨"else".toList, .between 13 17⟩,
      ⟨");".toList, .between 17 19⟩] := by decide +kernel
  have hreads : Reads 64 0 (.block (tokenize (Simple.input "else".toList).line))
      [.step .io "Input Value", .step .process "else", .step .process ")"] [] := by
    rw [htokens]
    exact .cons rfl rfl (.input (by decide +kernel)) (.cons rfl rfl (.process (by decide +kernel))
      (.cons rfl rfl (.process (by decide +kernel)) .nil))
  have hread : Program.ofSource 64 (Simple.input "else".toList).line = .ok (.ofNodes
      [.step .io "Input Value", .step .process "else", .step .process ")"]) := by
    rw [Program.ofSource, Program.ofFragments, reads_block_iff.mpr hreads]
    rfl
  refine ⟨hread, fun h => ?_⟩
  have hcount := congrArg (Program.count ·) (Except.ok.inj (hread.symm.trans h))
  exact absurd hcount (by decide)

end Flowchart
