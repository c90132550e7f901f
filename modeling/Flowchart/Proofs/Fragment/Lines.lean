import Flowchart.Proofs.Fragment.Runs
import Flowchart.Proofs.Pieces.Plain

/-!
# Fragments line by line

* `IsLine`: a text that is one fragment by itself, without a comment.
* `Printed`: a text that shows lines in order, each with any indentation.
* `texts_tokenize_of_printed`: the fragments of a printed text are its lines.
-/

namespace Flowchart

open Text (byteLength isBlank isBlankText trim)

/-! ## Texts of fragments -/

/-- The texts of fragments, without their spans. -/
def texts (fs : List Fragment) : List (List Char) := fs.map Fragment.text

@[simp] theorem texts_append (fs gs : List Fragment) : texts (fs ++ gs) = texts fs ++ texts gs :=
  List.map_append

@[simp] theorem texts_cons (f : Fragment) (fs : List Fragment) :
    texts (f :: fs) = f.text :: texts fs := rfl

/-- The text of the statement under way, none if there is no statement. -/
def underWay (u : Option Unfinished) : List Char := (u.map Unfinished.text).getD []

/-- The text of a statement, trimmed, unless it is blank. -/
def finished (text : List Char) : List (List Char) :=
  if (trim text).isEmpty then [] else [trim text]

theorem texts_finish (u : Option Unfinished) :
    texts (Unfinished.finish u) = finished (underWay u) := by
  cases u with
  | none => rfl
  | some u =>
    unfold Unfinished.finish finished
    cases h : (trim u.text).isEmpty <;> simp [underWay, texts, h]

theorem finished_blank_append {b : List Char} (hb : isBlankText b = true) (t : List Char) :
    finished (b ++ t) = finished t := by
  rw [finished, Text.trim_blank_append hb, finished]

theorem finished_append_blank {b : List Char} (hb : isBlankText b = true) (t : List Char) :
    finished (t ++ b) = finished t := by
  rw [finished, Text.trim_append_blank hb, finished]

theorem finished_semicolon (t : List Char) : finished (t ++ [';']) = [trim (t ++ [';'])] := by
  have hmem : ';' ∈ trim (t ++ [';']) := Text.mem_trim_of_not_blank (by decide) (by simp)
  simp [finished, List.ne_nil_of_mem hmem]

section Texts

variable {offset offset' : Nat} {u u' : Option Unfinished} {p : Piece} {ps qs : List Piece}

/-- Where fragments begin makes no difference to their texts. -/
theorem texts_assemble_congr (hu : u.map Unfinished.text = u'.map Unfinished.text) :
    texts (assemble offset u ps) = texts (assemble offset' u' ps) := by
  have hfinish {u u' : Option Unfinished} (hu : u.map Unfinished.text = u'.map Unfinished.text) :
      texts (Unfinished.finish u) = texts (Unfinished.finish u') := by
    rw [texts_finish, texts_finish, underWay, underWay, hu]
  induction ps generalizing offset offset' u u' with
  | nil => exact hfinish hu
  | cons p ps ih =>
    rcases p.newline_or_standsAlone_or_directive_or_isInner with hk | hk | hk | hk
    · rw [assemble_newline hk, assemble_newline hk, texts_append, texts_append, hfinish hu, ih rfl]
    · rw [assemble_standsAlone hk, assemble_standsAlone hk, texts_append, texts_append, texts_cons,
        texts_cons, hfinish hu, ih rfl]
    · rw [assemble_directive hk, assemble_directive hk, ih hu]
    · cases hi : p.isIgnored with
      | true =>
        rw [assemble_pad hi hk, assemble_pad hi hk]
        refine ih ?_
        cases u <;> cases u' <;> simp_all [Unfinished.pad]
      | false =>
        rw [assemble_extend hi hk, assemble_extend hi hk]
        refine ih ?_
        cases u <;> cases u' <;> simp_all [Unfinished.extend]

theorem texts_assemble_append_newline (hp : p.kind = .newline) :
    texts (assemble offset u (ps ++ p :: qs)) =
      texts (assemble offset u ps) ++ texts (assemble 0 none qs) := by
  rw [assemble_append_newline hp, texts_append]
  exact congrArg _ (texts_assemble_congr rfl)

/-- Pieces that may stand inside a statement are one fragment, if they show anything at all. -/
theorem texts_assemble_inner (h : ∀ p ∈ ps, p.isInner = true ∧ p.kind ≠ .comment) :
    texts (assemble offset u ps) = finished (underWay u ++ ps.flatMap Piece.text) := by
  induction ps generalizing offset u with
  | nil => simp [assemble, texts_finish]
  | cons p ps ih =>
    obtain ⟨⟨hin, hk⟩, hps⟩ := List.forall_mem_cons.mp h
    have hp : withoutComments [p] = p.text := by simp [withoutComments, hk]
    cases hi : p.isIgnored with
    | true =>
      have hblank : isBlankText p.text = true := by
        cases hkind : p.kind <;> simp_all [Piece.isIgnored, Piece.isInner]
      rw [assemble_pad hi hin, ih hps, hp]
      cases u with
      | none => simp [underWay, finished_blank_append hblank]
      | some u => simp [underWay, Unfinished.pad]
    | false =>
      rw [assemble_extend hi hin, ih hps, hp]
      cases u <;> simp [underWay, Unfinished.extend]

end Texts

/-! ## Lines -/

/-- The text is one fragment by itself and has no comment. -/
structure IsLine (line : List Char) : Prop where
  not_comment : ∀ p ∈ pieces true line, p.kind ≠ .comment
  texts_eq : texts (tokenize line) = [line]

/-- The text shows the lines in order, each with any indentation, and breaks between them. -/
inductive Printed : List (List Char) → List Char → Prop where
  | nil : Printed [] []
  | last {indent line : List Char} (blank : isBlankText indent = true) (flat : '\n' ∉ indent) :
      Printed [line] (indent ++ line)
  | cons {indent line text : List Char} {lines : List (List Char)}
      (blank : isBlankText indent = true) (flat : '\n' ∉ indent) (more : Printed lines text) :
      Printed (line :: lines) (indent ++ line ++ '\n' :: text)

theorem not_mem_markers_of_isBlank {c : Char} (h : isBlank c = true) (hc : c ≠ '\n') :
    isWordChar c = false ∧ c ∉ '#' :: '/' :: markers := by
  refine ⟨?_, fun hm => ?_⟩
  · cases hw : isWordChar c with
    | false => rfl
    | true => rw [isBlank_of_isWordChar hw] at h; cases h
  · simp only [markers, List.mem_cons, List.not_mem_nil, or_false, hc, false_or] at hm
    rcases hm with rfl | rfl | rfl | rfl | rfl | rfl <;> exact absurd h (by decide)

/-- Indentation makes no difference. -/
theorem texts_assemble_indent {indent : List Char} (blank : isBlankText indent = true)
    (flat : '\n' ∉ indent) (offset : Nat) (text : List Char) :
    texts (assemble offset none (pieces true (indent ++ text))) = texts (tokenize text) := by
  induction indent generalizing offset with
  | nil => exact texts_assemble_congr rfl
  | cons c cs ih =>
    rw [isBlankText, List.all_cons, Bool.and_eq_true] at blank
    obtain ⟨hflat, hflats⟩ := not_or.mp (List.mem_cons.not.mp flat)
    obtain ⟨hw, hm⟩ := not_mem_markers_of_isBlank blank.1 (Ne.symm hflat)
    simp only [List.mem_cons, not_or] at hm
    rw [List.cons_append, pieces_symbol hw hm.2.2 (fun h => absurd h hm.2.1) (fun _ => hm.1)]
    have hi : Piece.isIgnored ⟨.symbol, [c]⟩ = true := by simp [Piece.isIgnored, isBlankText, blank]
    rw [assemble_pad hi rfl, blank.1]
    exact ih blank.2 hflats _

/-- The fragments of a printed text are its lines. -/
theorem texts_tokenize_of_printed {lines : List (List Char)} {text : List Char}
    (h : Printed lines text) (hlines : ∀ line ∈ lines, IsLine line) :
    texts (tokenize text) = lines := by
  induction h with
  | nil =>
    rw [tokenize, pieces]
    rfl
  | last blank flat =>
    rw [tokenize, texts_assemble_indent blank flat]
    exact (hlines _ List.mem_cons_self).texts_eq
  | cons blank flat _ ih =>
    obtain ⟨hline, hlines⟩ := List.forall_mem_cons.mp hlines
    rw [tokenize, List.append_assoc, texts_assemble_indent blank flat, tokenize,
      pieces_append_newline hline.not_comment, texts_assemble_append_newline rfl]
    exact congrArg₂ (· ++ ·) hline.texts_eq (ih hlines)

/-- A trimmed text whose pieces may all stand inside a statement is a line. -/
theorem isLine_of_inner {line : List Char}
    (h : ∀ p ∈ pieces true line, p.isInner = true ∧ p.kind ≠ .comment)
    (hne : line ≠ []) (htrim : trim line = line) : IsLine line := by
  refine ⟨fun p hp => (h p hp).2, ?_⟩
  rw [tokenize, texts_assemble_inner h, flatMap_text_pieces]
  simp [underWay, finished, htrim, hne]

/-! ## Texts that are one fragment -/

/-- A comment is longer than the space it becomes. -/
theorem length_withoutComments_add_le {ps : List Piece} (hs : ∀ p ∈ ps, p.Shaped) :
    (withoutComments ps).length + ps.countP (·.kind = .comment) ≤
      (ps.flatMap Piece.text).length := by
  induction ps with
  | nil => simp [withoutComments]
  | cons p ps ih =>
    obtain ⟨hp, hps⟩ := List.forall_mem_cons.mp hs
    have hrest := ih hps
    rw [List.countP_cons, ← List.singleton_append, withoutComments_append]
    simp only [List.flatMap_append, List.flatMap_singleton, List.length_append]
    by_cases hk : p.kind = .comment
    · obtain ⟨d, t, ht⟩ : ∃ d t, p.text = '/' :: d :: t := by
        rwa [Piece.Shaped, hk] at hp
      simp only [withoutComments, List.flatMap_singleton, hk, ht, ↓reduceIte, decide_true,
        List.length_cons, List.length_nil] at hrest ⊢
      omega
    · simp only [withoutComments, List.flatMap_singleton, hk, ↓reduceIte, decide_false,
        Bool.false_eq_true] at hrest ⊢
      omega

theorem length_trim_le (t : List Char) : (trim t).length ≤ t.length := by
  obtain ⟨a, b, -, -, h⟩ := Text.exists_eq_append_trim t
  conv => rhs; rw [h]
  simp only [List.length_append]
  omega

/-- A text that is one fragment by itself has no comment: its fragment would be shorter. -/
theorem isLine_of_texts_tokenize {line : List Char} (h : texts (tokenize line) = [line]) :
    IsLine line := by
  obtain ⟨f, hf, htext⟩ := List.map_eq_singleton_iff.mp h
  obtain ⟨before, run, after, heq, hm⟩ := (cuts_tokenize line).exists_madeOf f (by simp [hf])
  have hrun : line.length ≤ (withoutComments run).length := by
    rw [← htext, hm.text]
    exact length_trim_le _
  have hall := length_withoutComments_add_le (scanned_pieces true line).shaped_of_mem
  rw [flatMap_text_pieces] at hall
  have hle : (withoutComments run).length ≤ (withoutComments (pieces true line)).length := by
    rw [heq, withoutComments_append, withoutComments_append]
    simp only [List.length_append]
    omega
  have hnone : (pieces true line).countP (·.kind = .comment) = 0 := by omega
  exact ⟨by simpa using hnone, h⟩

end Flowchart
