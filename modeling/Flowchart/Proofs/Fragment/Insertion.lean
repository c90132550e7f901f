import Flowchart.Proofs.Fragment.Partition
import Flowchart.Proofs.Fragment.Rescan
import Flowchart.Proofs.Padding
import Flowchart.Proofs.Pieces.Tail

/-!
# Semicolons and white space put after a text

* `EndsInStatement`, `EndsInComment`: padding after a text belongs to the statement that the text
  ends with, or is lost in a comment or directive. `endsInStatement_or_endsInComment`: there is no
  third way.
* `exists_pending`: the fragments of a text that do not depend on what comes after it, and what is
  under way after them.
-/

namespace Flowchart

open Text (byteLength isBlank isBlankText trim)

/-! ## Fragments of the pieces at the front -/

/-- Up to what is under way after them, the fragments of pieces do not depend on what comes after.
-/
theorem exists_pending {ps after : List Piece} {offset : Nat} {seen : List Piece}
    {u : Option Unfinished} (hs : Scanned u.isNone (ps ++ after)) (h : Pending offset seen u) :
    ∃ fs start seen' v, seen' <:+ seen ++ ps ∧ Pending start seen' v ∧ Scanned v.isNone after ∧
      ∀ qs, assemble (offset + byteWidth seen) u (ps ++ qs) =
        fs ++ assemble (offset + byteWidth (seen ++ ps)) v qs := by
  induction ps generalizing offset seen u with
  | nil => exact ⟨[], offset, seen, u, by simp, h, hs, fun _ => by simp⟩
  | cons p ps ih =>
    obtain _ | ⟨-, start, -, rest⟩ := hs
    have hw : offset + byteWidth seen + byteLength p.text = offset + byteWidth (seen ++ [p]) := by
      simp [Nat.add_assoc]
    -- Between statements the pieces seen before do not matter any more.
    have hidle (hr : Scanned true (ps ++ after)) : ∃ fs start seen' v,
        seen' <:+ seen ++ p :: ps ∧ Pending start seen' v ∧ Scanned v.isNone after ∧
          ∀ qs, assemble (offset + byteWidth (seen ++ [p])) none (ps ++ qs) =
            fs ++ assemble (offset + byteWidth (seen ++ p :: ps)) v qs := by
      have hnone : Pending (offset + byteWidth (seen ++ [p])) [] none := .between (by simp)
      have hscanned : Scanned (none : Option Unfinished).isNone (ps ++ after) := hr
      obtain ⟨fs, start, seen', v, hsuffix, hv, hafter, hfs⟩ := ih hscanned hnone
      have hps : ps <:+ seen ++ p :: ps := ⟨seen ++ [p], by simp⟩
      refine ⟨fs, start, seen', v, hsuffix.trans hps, hv, hafter, fun qs => (hfs qs).trans ?_⟩
      simp [Nat.add_assoc]
    rcases p.newline_or_standsAlone_or_directive_or_isInner with hk | hk | hk | hk
    · rw [Piece.leavesAtStart_newline hk] at rest
      obtain ⟨fs, start, seen', v, hsuffix, hv, hafter, hfs⟩ := hidle rest
      refine ⟨Unfinished.finish u ++ fs, start, seen', v, hsuffix, hv, hafter, fun qs => ?_⟩
      rw [List.cons_append, assemble_newline hk, hw, hfs, List.append_assoc]
    · rw [Piece.leavesAtStart_standsAlone hk] at rest
      obtain ⟨fs, start, seen', v, hsuffix, hv, hafter, hfs⟩ := hidle rest
      refine ⟨Unfinished.finish u ++ ⟨p.text, .between (offset + byteWidth seen)
        (offset + byteWidth seen + byteLength p.text)⟩ :: fs, start, seen', v, hsuffix, hv, hafter,
        fun qs => ?_⟩
      rw [List.cons_append, assemble_standsAlone hk, hw, hfs, List.append_assoc, List.cons_append]
    · obtain rfl := Option.isNone_iff_eq_none.mp (start hk)
      rw [Piece.leavesAtStart_directive hk] at rest
      have hi : p.isIgnored = true := by simp [Piece.isIgnored, hk]
      simp only [List.cons_append, assemble_directive hk, hw]
      simpa using ih rest (h.skip hi)
    · rw [Piece.leavesAtStart_inner hk] at rest
      cases hi : p.isIgnored with
      | true =>
        simp only [List.cons_append, assemble_pad hi hk, hw]
        simpa using ih (by simpa [hi] using rest) (h.pad hi hk)
      | false =>
        simp only [List.cons_append, assemble_extend hi hk, hw]
        have hextend := h.extend hi hk
        rw [Nat.add_assoc offset, ← byteWidth_append] at hextend
        simpa using ih (by simpa [hi] using rest) hextend

/-! ## What a fragment that is no brace shows -/

/-- The text is neither a brace nor `else`. -/
structure Ordinary (t : List Char) : Prop where
  ne_open : t ≠ ['{']
  ne_close : t ≠ ['}']
  ne_else : t ≠ "else".toList

/-- A quote tells a text from a brace and from `else`. -/
theorem Ordinary.of_mem {t : List Char} {quote : Char} (hq : quote = '"' ∨ quote = '\'')
    (h : quote ∈ t) : Ordinary t := by
  constructor <;>
  · rintro rfl
    rcases hq with rfl | rfl <;> exact absurd h (by decide)

/-- A statement under way is ordinary, if it shows anything. -/
theorem Pending.ordinary {offset : Nat} {seen : List Piece} {u : Option Unfinished}
    (h : Pending offset seen u) (hs : ∀ p ∈ seen, p.Shaped)
    (hchain : seen.IsChain fun p q => p.isWord = true → q.isWord = false) :
    trim (underWay u) = [] ∨ Ordinary (trim (underWay u)) := by
  cases h with
  | between => exact .inl rfl
  | @within gap run trail _ statement trailing =>
    have hrun : run <:+: gap ++ run ++ trail := ⟨gap, trail, rfl⟩
    have hshaped : ∀ p ∈ run, p.Shaped := fun p hp => hs p (hrun.subset hp)
    have hwords := List.IsChain.infix hchain hrun
    show trim (withoutComments (run ++ trail)) = [] ∨
      Ordinary (trim (withoutComments (run ++ trail)))
    rw [withoutComments_append, Text.trim_append_blank (isBlankText_withoutComments trailing)]
    exact .inr ⟨statement.text_ne_brace hshaped (.inl rfl),
      statement.text_ne_brace hshaped (.inr rfl), statement.text_ne_otherwise hshaped hwords⟩

/-! ## Padding -/

theorem texts_tokenize_nil : texts (tokenize []) = [] := by
  rw [tokenize, pieces]
  rfl

theorem texts_tokenize_newline (z : List Char) :
    texts (tokenize ('\n' :: z)) = texts (tokenize z) := by
  rw [tokenize, pieces_newline, assemble_newline rfl]
  exact texts_assemble_congr rfl

theorem AtLineEnd.separatorFollows {z : List Char} (hz : AtLineEnd z) : SeparatorFollows z := by
  intro s hs
  obtain rfl := hz s hs
  exact ⟨by decide, by decide, by decide⟩

namespace IsPadding

variable {w z : List Char}

theorem separatorFollows (hw : IsPadding w) (hz : AtLineEnd z) : SeparatorFollows (w ++ z) := by
  intro s hs
  cases w with
  | nil => exact hz.separatorFollows s hs
  | cons c w =>
    obtain rfl := Option.some.inj hs
    have hc : c ∈ c :: w := List.mem_cons_self
    exact ⟨hw.not_word c hc, ne_of_mem_of_not_mem hc (hw.not_mem (by decide) (by decide)),
      ne_of_mem_of_not_mem hc (hw.not_mem (by decide) (by decide))⟩

theorem innerText (hw : IsPadding w) (hn : '\n' ∉ w) (atStart : Bool) : InnerText atStart w := by
  induction w generalizing atStart with
  | nil => exact innerText_nil
  | cons c w ih =>
    have hc : c ∈ c :: w := List.mem_cons_self
    have hne {d : Char} (hd : d ≠ ';') (hb : isBlank d = false) : c ≠ d :=
      ne_of_mem_of_not_mem hc (hw.not_mem hd hb)
    have hmarkers : c ∉ markers := by
      simp only [markers, List.mem_cons, List.not_mem_nil, or_false, not_or]
      exact ⟨ne_of_mem_of_not_mem hc hn, hne (by decide) (by decide),
        hne (by decide) (by decide), hne (by decide) (by decide), hne (by decide) (by decide)⟩
    refine innerText_symbol (hw.not_word c hc) hmarkers (fun h => ?_) (fun _ => ?_) ?_
    · exact absurd h (hne (by decide) (by decide))
    · exact hne (by decide) (by decide)
    · exact ih (List.forall_mem_cons.mp hw).2 (not_or.mp (List.mem_cons.not.mp hn)).2 _

end IsPadding

/-! ## Texts that end in a statement -/

/-- Padding after a literal that waits for its end belongs to the literal. -/
theorem InnerText.of_waits {atStart : Bool} {quote : Char} {t w : List Char}
    (hq : quote = '"' ∨ quote = '\'') (ht : Literal.Waits (· == '\n') quote t) (hw : IsPadding w)
    (hn : '\n' ∉ w) : InnerText atStart (quote :: (t ++ w)) := by
  refine innerText_literal hq ?_
  have hquote : '\\' ≠ quote := by rcases hq with rfl | rfl <;> decide
  have hplain : ∀ c ∈ w, c ≠ quote ∧ c ≠ '\\' ∧ (c == '\n') = false := fun c hc =>
    ⟨(hw.plain hq c hc).1, (hw.plain hq c hc).2, by simpa using ne_of_mem_of_not_mem hc hn⟩
  rcases ht.scan_append_plain hquote hplain with hrest | hrest
  · rw [hrest]
    exact innerText_nil
  · rw [hrest]
    exact innerText_backslash

/-- Pieces that may all stand inside a statement, and then the end of the line. -/
theorem texts_assemble_pieces_line {atStart : Bool} {u : Option Unfinished} {t z : List Char}
    (ht : InnerText atStart t) (hz : AtLineEnd z) :
    texts (assemble 0 u (pieces atStart (t ++ z))) =
      finished (underWay u ++ t) ++ texts (tokenize z) := by
  have hline : texts (assemble 0 u (pieces atStart t)) = finished (underWay u ++ t) := by
    rw [texts_assemble_inner ht, flatMap_text_pieces]
  rcases hz.eq_nil_or with rfl | ⟨y, rfl⟩
  · rw [List.append_nil, hline, texts_tokenize_nil, List.append_nil]
  · rw [pieces_append_newline fun p hp => (ht p hp).2, texts_assemble_append_newline rfl, hline,
      texts_tokenize_newline, tokenize]

/-- Padding after the text belongs to the statement that it ends with, the text of which is `text`
so far. The statements before it are `before`. -/
structure EndsInStatement (cs : List Char) (before : List (List Char)) (text : List Char) :
    Prop where
  ordinary : trim text = [] ∨ Ordinary (trim text)
  texts_eq : ∀ w z, IsPadding w → '\n' ∉ w → AtLineEnd z →
    texts (tokenize (cs ++ w ++ z)) = before ++ finished (text ++ w) ++ texts (tokenize z)

/-- Padding after the text is lost in a comment or a directive. -/
structure EndsInComment (cs : List Char) : Prop where
  texts_eq : ∀ w z, IsPadding w → '\n' ∉ w → AtLineEnd z →
    texts (tokenize (cs ++ w ++ z)) = texts (tokenize (cs ++ z))
  /-- The next lines are lost as well, or begin anew. -/
  texts_newline : ∀ z, '*' ∉ z → texts (tokenize (cs ++ '\n' :: z)) = texts (tokenize cs) ∨
    texts (tokenize (cs ++ '\n' :: z)) = texts (tokenize cs) ++ texts (tokenize z)

section Ends

variable {atStart : Bool} {cs tail t z : List Char} {before : List (List Char)}
  {v : Option Unfinished} {kind : PieceKind}

/-- How a comment or directive goes on makes no difference. -/
theorem texts_assemble_lost (hkind : kind = .directive ∨ kind = .comment) (t t' : List Char)
    (ps : List Piece) :
    texts (assemble 0 v (⟨kind, t⟩ :: ps)) = texts (assemble 0 v (⟨kind, t'⟩ :: ps)) := by
  rcases hkind with rfl | rfl
  · rw [assemble, assemble]
    exact texts_assemble_congr rfl
  · rw [assemble, assemble]
    exact texts_assemble_congr rfl

/-- A comment or directive at the end of the text that takes all of the line. -/
theorem EndsInComment.of_line {c : Char}
    (htexts : ∀ x, SeparatorFollows x →
      texts (tokenize (cs ++ x)) = before ++ texts (assemble 0 v (pieces atStart (c :: t ++ x))))
    (hkind : kind = .directive ∨ kind = .comment)
    (hfirst : ∀ x, Piece.first atStart c (t ++ x) =
      (⟨kind, c :: (t ++ x.takeWhile (· != '\n'))⟩, x.dropWhile (· != '\n'))) :
    EndsInComment cs := by
  have hpieces (x : List Char) (hx : SeparatorFollows x) : texts (tokenize (cs ++ x)) = before ++
      texts (assemble 0 v (⟨kind, c :: t⟩ :: pieces atStart (x.dropWhile (· != '\n')))) := by
    rw [htexts x hx, pieces_line hkind hfirst, texts_assemble_lost hkind]
  refine ⟨fun w z hw hn hz => ?_, fun z _ => .inr ?_⟩
  · rw [List.append_assoc, hpieces _ (hw.separatorFollows hz), hz.dropWhile_append hn,
      hpieces z hz.separatorFollows, hz.dropWhile_eq]
  · have hz := AtLineEnd.newline z
    have hcs := hpieces [] AtLineEnd.nil.separatorFollows
    rw [List.append_nil, List.dropWhile_nil, pieces] at hcs
    rw [hcs, hpieces _ hz.separatorFollows, hz.dropWhile_eq, pieces_newline,
      ← List.singleton_append, texts_assemble_append_newline rfl, List.append_assoc, tokenize]

/-- A block comment at the end of the text. -/
theorem EndsInComment.of_block
    (htexts : ∀ x, SeparatorFollows x → texts (tokenize (cs ++ x)) =
      before ++ texts (assemble 0 v (pieces atStart ('/' :: '*' :: t ++ x))))
    (ht : Piece.OpenComment t) : EndsInComment cs := by
  have hpieces (x : List Char) (hx : SeparatorFollows x) : texts (tokenize (cs ++ x)) = before ++
      texts (assemble 0 v (⟨.comment, []⟩ :: pieces atStart (Piece.scanComment x).2)) := by
    have hslash : x.head? ≠ some '/' := fun h => (hx _ h).not_slash rfl
    rw [htexts x hx, pieces_block ht hslash, texts_assemble_lost (.inr rfl)]
  refine ⟨fun w z hw hn hz => ?_, fun z hz => .inl ?_⟩
  · rw [List.append_assoc, hpieces _ (hw.separatorFollows hz),
      Piece.scanComment_of_not_mem (hw.not_mem (by decide) (by decide)),
      hpieces z hz.separatorFollows]
  · have hcs := hpieces [] AtLineEnd.nil.separatorFollows
    have hstar : '*' ∉ '\n' :: z := by simpa using hz
    have hscan := Piece.scanComment_of_not_mem hstar []
    rw [List.append_nil] at hcs hscan
    rw [hcs, hpieces _ (AtLineEnd.newline z).separatorFollows, hscan]

end Ends

/-- The fragments of a text up to an end that what follows may continue. -/
theorem exists_texts_tokenize {cs tail : List Char} {init : List Piece} {b : Bool}
    (hpieces : ∀ x, SeparatorFollows x → pieces true (cs ++ x) = init ++ pieces b (tail ++ x)) :
    ∃ before start seen v, seen <:+ init ∧ Pending start seen v ∧ ∀ x, SeparatorFollows x →
      texts (tokenize (cs ++ x)) = before ++ texts (assemble 0 v (pieces b (tail ++ x))) := by
  have hscanned : Scanned (none : Option Unfinished).isNone (init ++ pieces b (tail ++ [])) := by
    rw [← hpieces [] AtLineEnd.nil.separatorFollows]
    exact scanned_pieces _ _
  have hnone : Pending 0 [] none := .between (by simp)
  obtain ⟨fs, start, seen, v, hsuffix, hv, -, hfs⟩ := exists_pending hscanned hnone
  refine ⟨texts fs, start, seen, v, hsuffix, hv, fun x hx => ?_⟩
  have hall := hfs (pieces b (tail ++ x))
  rw [tokenize, hpieces x hx]
  exact (congrArg texts hall).trans ((texts_append _ _).trans
    (congrArg _ (texts_assemble_congr rfl)))

/-- Padding belongs to a statement or is lost. -/
theorem endsInStatement_or_endsInComment (cs : List Char) :
    (∃ before text, EndsInStatement cs before text) ∨ EndsInComment cs := by
  obtain ⟨init, b, tail, htail, hpieces⟩ := exists_unended true cs
  obtain ⟨before, start, seen, v, hsuffix, hv, htexts⟩ := exists_texts_tokenize hpieces
  cases htail with
  | nothing =>
    have hscanned : Scanned true init := by
      have hcs := hpieces [] AtLineEnd.nil.separatorFollows
      have hnil : pieces b ([] ++ []) = [] := by rw [List.append_nil, pieces]
      rw [hnil, List.append_nil, List.append_nil] at hcs
      exact hcs ▸ scanned_pieces true cs
    have hshaped : ∀ p ∈ seen, p.Shaped := fun p hp =>
      hscanned.shaped_of_mem p (hsuffix.subset hp)
    have hchain := List.IsChain.infix hscanned.isChain hsuffix.isInfix
    refine .inl ⟨before, underWay v, hv.ordinary hshaped hchain, fun w z hw hn hz => ?_⟩
    rw [List.append_assoc, htexts _ (hw.separatorFollows hz), List.nil_append,
      texts_assemble_pieces_line (hw.innerText hn b) hz, List.append_assoc]
  | @literal quote t hq ht =>
    have hmem : quote ∈ trim (underWay v ++ quote :: t) := by
      refine Text.mem_trim_of_not_blank ?_ (by simp)
      rcases hq with rfl | rfl <;> rfl
    refine .inl ⟨before, underWay v ++ quote :: t, .inr (.of_mem hq hmem), fun w z hw hn hz => ?_⟩
    rw [List.append_assoc, htexts _ (hw.separatorFollows hz), ← List.append_assoc, List.cons_append,
      texts_assemble_pieces_line (.of_waits hq ht hw hn) hz]
    simp
  | line hkind _ hfirst => exact .inr (.of_line htexts hkind hfirst)
  | block ht => exact .inr (.of_block htexts ht)

/-- What is on the next lines begins anew or is lost in a comment. -/
theorem texts_tokenize_append_newline (cs : List Char) {z : List Char} (hz : '*' ∉ z) :
    texts (tokenize (cs ++ '\n' :: z)) = texts (tokenize cs) ∨
    texts (tokenize (cs ++ '\n' :: z)) = texts (tokenize cs) ++ texts (tokenize z) := by
  rcases endsInStatement_or_endsInComment cs with ⟨before, text, h⟩ | h
  · have hcs := h.texts_eq [] [] .nil (by simp) .nil
    have hnext := h.texts_eq [] ('\n' :: z) .nil (by simp) (.newline z)
    rw [List.append_nil, List.append_nil, texts_tokenize_nil, List.append_nil] at hcs
    rw [List.append_nil, texts_tokenize_newline, ← hcs] at hnext
    exact .inr hnext
  · exact h.texts_newline z hz

end Flowchart
