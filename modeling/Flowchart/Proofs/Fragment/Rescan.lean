import Flowchart.Proofs.Block.Similar
import Flowchart.Proofs.Code.Lines
import Flowchart.Proofs.Literal

/-!
# Fragments scanned again

`tokenize_joinLines`: the texts of the fragments of a source, one on each line, have the same texts
again, and make the same program.

* `InnerText`: a text whose pieces may all stand inside a statement, none of them a comment.
* `innerText_of_run`: what a statement shows is such a text. Trimming cuts into no piece but the
  last one, and only if that is a literal that nothing closes.
* `standsAlone_or_innerText`: a fragment of a source is such a text, or a brace or `else`. So it is
  one fragment by itself (`isLine_of_mem_tokenize`).
-/

namespace Flowchart

open Text (isBlank isBlankText trim joinLines)

/-! ## First pieces that may stand inside a statement -/

namespace Piece

variable {atStart : Bool} {c : Char} {cs : List Char}

/-- The first piece of the text `c :: cs`, if it may stand inside a statement. -/
inductive FirstInner (atStart : Bool) (c : Char) (cs : List Char) : Prop where
  | comment (kind : (first atStart c cs).1.kind = .comment)
  | symbol (first_eq : first atStart c cs = (⟨.symbol, [c]⟩, cs)) (not_word : isWordChar c = false)
      (unmarked : c ∉ markers) (not_comment : c = '/' → cs.head? ≠ some '/' ∧ cs.head? ≠ some '*')
      (not_directive : atStart = true → c ≠ '#')
  | word {w rest : List Char} (first_eq : first atStart c cs = (⟨.word, w⟩, rest)) (ne_nil : w ≠ [])
      (isWordChar : ∀ d ∈ w, isWordChar d = true) (not_else : w ≠ "else".toList)
      (whole : ∀ d ∈ rest.head?, Flowchart.isWordChar d = false)
  | literal {kind : PieceKind} (isLiteral : kind = .string ∨ kind = .character)
      (quote : c = '"' ∨ c = '\'')
      (first_eq : first atStart c cs = (⟨kind, c :: (Literal.scan (· == '\n') c cs).1⟩,
        (Literal.scan (· == '\n') c cs).2))

theorem firstInner (h : (first atStart c cs).1.isInner = true) : FirstInner atStart c cs := by
  replace h : isInner ⟨kindAt atStart c cs, _⟩ = true := h
  revert h
  cases hkind : kindAt atStart c cs with
  | directive | newline | openBrace | closeBrace | otherwise => simp [isInner]
  | comment => exact fun _ => .comment hkind
  | symbol =>
    intro _
    have hfirst : first atStart c cs = (⟨.symbol, [c]⟩, cs) := by simp [first, hkind, extent]
    revert hkind
    fun_cases kindAt atStart c cs with
    | case10 hs hk hn ho hc hq ha hw =>
      refine fun _ => .symbol hfirst (by simpa using hw)
        (by simp [markers, hn, ho, hc, hq, ha]) ?_ ?_
      · exact fun hd => not_or.mp fun h => hk ⟨hd, h⟩
      · exact fun h hd => hs ⟨h, hd⟩
    | case1 | case2 | case3 | case4 | case5 | case6 | case7 | case8 | case9 => simp
  | word =>
    intro _
    have hfirst : first atStart c cs =
        (⟨.word, c :: cs.takeWhile isWordChar⟩, cs.dropWhile isWordChar) := by
      simp [first, hkind, extent]
    revert hkind
    fun_cases kindAt atStart c cs with
    | case9 _ _ _ _ _ _ _ hw hne =>
      refine fun _ => .word hfirst (List.cons_ne_nil _ _) ?_ hne Text.of_mem_head?_dropWhile
      exact List.forall_mem_cons.mpr ⟨hw, fun d hd => List.mem_takeWhile_imp hd⟩
    | case1 | case2 | case3 | case4 | case5 | case6 | case7 | case8 | case10 => simp
  | string =>
    refine fun _ => .literal (.inl rfl) (of_kindAt_literal (.inl hkind)) ?_
    simp [first, hkind, extent]
  | character =>
    refine fun _ => .literal (.inr rfl) (of_kindAt_literal (.inr hkind)) ?_
    simp [first, hkind, extent]

end Piece

/-! ## Texts without comments and fragments of their own -/

/-- Each piece of the text may stand inside a statement, and none is a comment. -/
def InnerText (atStart : Bool) (t : List Char) : Prop :=
  ∀ p ∈ pieces atStart t, p.isInner = true ∧ p.kind ≠ .comment

section InnerText

variable {atStart : Bool} {c : Char} {t : List Char}

theorem innerText_nil : InnerText atStart [] := by simp [InnerText, pieces]

theorem innerText_symbol (hw : isWordChar c = false) (hm : c ∉ markers)
    (hcomment : c = '/' → t.head? ≠ some '/' ∧ t.head? ≠ some '*')
    (hstart : atStart = true → c ≠ '#') (ht : InnerText (atStart && isBlank c) t) :
    InnerText atStart (c :: t) := by
  unfold InnerText
  rw [pieces_symbol hw hm hcomment hstart]
  exact List.forall_mem_cons.mpr ⟨by simp [Piece.isInner], ht⟩

theorem innerText_word {w : List Char} (hne : w ≠ []) (hw : ∀ c ∈ w, isWordChar c = true)
    (helse : w ≠ "else".toList) (hrest : ∀ c ∈ t.head?, isWordChar c = false)
    (ht : InnerText false t) : InnerText atStart (w ++ t) := by
  unfold InnerText
  rw [pieces_word hne hw helse hrest]
  exact List.forall_mem_cons.mpr ⟨by simp [Piece.isInner], ht⟩

theorem innerText_backslash : InnerText atStart ['\\'] :=
  innerText_symbol (by decide) (by decide) (fun h => absurd h (by decide))
    (fun _ => by decide) innerText_nil

/-- A literal, and what it leaves. -/
theorem innerText_literal (hc : c = '"' ∨ c = '\'')
    (ht : InnerText false (Literal.scan (· == '\n') c t).2) : InnerText atStart (c :: t) := by
  unfold InnerText
  have hblank (ds : List Char) : isBlankText (c :: ds) = false := by
    rcases hc with rfl | rfl <;> rfl
  have hfirst : ∃ kind, (kind = .string ∨ kind = .character) ∧ Piece.first atStart c t =
      (⟨kind, c :: (Literal.scan (· == '\n') c t).1⟩, (Literal.scan (· == '\n') c t).2) := by
    rcases hc with rfl | rfl
    · exact ⟨.string, .inl rfl, by simp [Piece.first, Piece.kindAt, Piece.extent]⟩
    · exact ⟨.character, .inr rfl, by simp [Piece.first, Piece.kindAt, Piece.extent]⟩
  obtain ⟨kind, hk, hfirst⟩ := hfirst
  rw [pieces, hfirst]
  refine List.forall_mem_cons.mpr ⟨?_, ?_⟩
  · rcases hk with rfl | rfl <;> simp [Piece.isInner]
  · have hleaves : Piece.leavesAtStart atStart ⟨kind, c :: (Literal.scan (· == '\n') c t).1⟩ =
        false := by
      rcases hk with rfl | rfl <;> simp [Piece.leavesAtStart, hblank]
    rw [hleaves]
    exact ht

/-- A hash sign at the front aside, it makes no difference whether a statement has begun. -/
theorem InnerText.of_head (hb : ∀ c ∈ t.head?, isBlank c = false ∧ c ≠ '#')
    (h : InnerText atStart t) (atStart' : Bool) : InnerText atStart' t := by
  cases t with
  | nil => exact innerText_nil
  | cons c cs =>
    obtain ⟨hblank, hhash⟩ := hb c rfl
    have hkind : Piece.kindAt atStart c cs = Piece.kindAt atStart' c cs := by
      simp [Piece.kindAt, hhash]
    have hfirst : Piece.first atStart c cs = Piece.first atStart' c cs := by
      rw [Piece.first, Piece.first, hkind]
    unfold InnerText at h ⊢
    rw [pieces, hfirst, List.forall_mem_cons] at h
    rw [pieces, List.forall_mem_cons]
    have hshow : (Piece.first atStart' c cs).1.isIgnored = false := by
      have htext : isBlankText (Piece.first atStart' c cs).1.text = false := by
        simp [Piece.first, isBlankText, hblank]
      have hin := h.1
      cases hk : (Piece.first atStart' c cs).1.kind <;> simp_all [Piece.isIgnored, Piece.isInner]
    have hleaves (b : Bool) : (Piece.first atStart' c cs).1.leavesAtStart b = false := by
      rw [Piece.leavesAtStart_inner h.1.1, hshow, Bool.and_false]
    rw [hleaves] at h ⊢
    exact h

end InnerText

/-! ## What a statement shows -/

/-- Pieces cut off at the front leave the pieces of a text. -/
theorem exists_pieces_of_append {atStart : Bool} {cs : List Char} {before rest : List Piece}
    (h : pieces atStart cs = before ++ rest) : ∃ b ds, pieces b ds = rest := by
  induction before generalizing atStart cs with
  | nil => exact ⟨atStart, cs, h⟩
  | cons p before ih =>
    cases cs with
    | nil => simp [pieces] at h
    | cons c cs =>
      rw [pieces, List.cons_append] at h
      exact ih (List.cons.inj h).2

/-- A piece of a run shows its text, or a space. -/
theorem withoutComments_cons (p : Piece) (ps : List Piece) : withoutComments (p :: ps) =
    (if p.kind = .comment then [' '] else p.text) ++ withoutComments ps := rfl

section Run

variable {atStart : Bool} {ds u e : List Char} {run after : List Piece}

/-- What a run shows begins like the text of the run, or with a space for a comment. -/
theorem head?_withoutComments (h : pieces atStart ds = run ++ after) :
    ∀ c ∈ (withoutComments run).head?, c = ' ' ∨ ds.head? = some c := by
  cases run with
  | nil => simp [withoutComments]
  | cons p run =>
    cases ds with
    | nil => simp [pieces] at h
    | cons d ds =>
      rw [pieces, List.cons_append] at h
      obtain ⟨rfl, -⟩ := List.cons.inj h
      rw [withoutComments_cons]
      split
      · simp
      · simp [Piece.first]

/-- No literal takes anything of the text, so that a backslash at most may follow in a statement. -/
theorem withoutComments_of_scan_nil {quote : Char} (h : pieces atStart ds = run ++ after)
    (hin : ∀ p ∈ run, p.isInner = true) (hds : (Literal.scan (· == '\n') quote ds).1 = []) :
    withoutComments run = [] ∨ withoutComments run = ['\\'] := by
  have hnewline (b : Bool) (ds : List Char) {run after : List Piece}
      (h : pieces b ('\n' :: ds) = run ++ after) (hin : ∀ p ∈ run, p.isInner = true) :
      run = [] := by
    cases run with
    | nil => rfl
    | cons p run =>
      rw [pieces, List.cons_append] at h
      obtain ⟨rfl, -⟩ := List.cons.inj h
      have := hin _ List.mem_cons_self
      simp [Piece.first, Piece.kindAt, Piece.isInner] at this
  have hbackslash (ds : List Char) : pieces atStart ('\\' :: ds) = ⟨.symbol, ['\\']⟩ ::
      pieces (atStart && isBlank '\\') ds :=
    pieces_symbol (by decide) (by decide) (fun h => absurd h (by decide)) (fun _ => by decide)
  have hafter {run after : List Piece} {ps : List Piece}
      (h : ⟨.symbol, ['\\']⟩ :: ps = run ++ after) (hps : ∀ {run' after' : List Piece},
        ps = run' ++ after' → (∀ p ∈ run', p.isInner = true) → run' = [])
      (hin : ∀ p ∈ run, p.isInner = true) :
      withoutComments run = [] ∨ withoutComments run = ['\\'] := by
    cases run with
    | nil => exact .inl rfl
    | cons p run =>
      rw [List.cons_append] at h
      obtain ⟨rfl, hrest⟩ := List.cons.inj h
      obtain rfl := hps hrest (List.forall_mem_cons.mp hin).2
      exact .inr rfl
  revert hds
  fun_cases Literal.scan (· == '\n') quote ds with
  | case1 =>
    intro _
    have hrun : run = [] := by
      rw [pieces] at h
      exact (List.append_eq_nil_iff.mp h.symm).1
    exact .inl (by rw [hrun]; rfl)
  | case3 hq =>
    intro _
    rw [hbackslash, pieces] at h
    exact hafter h (fun h _ => (List.append_eq_nil_iff.mp h.symm).1) hin
  | case4 d ds hd hq =>
    intro _
    obtain rfl : d = '\n' := by simpa using hd
    rw [hbackslash] at h
    exact hafter h (fun h hin => hnewline _ _ h hin) hin
  | case6 c cs hq hb hs =>
    intro _
    obtain rfl : c = '\n' := by simpa using hs
    exact .inl (by rw [hnewline _ _ h hin]; rfl)
  | case2 | case5 | case7 => simp

/-- The end of what a piece shows, if it is white space, is cut off a literal or is all of it. -/
theorem innerText_of_cut {c : Char} {cs : List Char} (h : Piece.FirstInner atStart c cs)
    (hu : withoutComments [(Piece.first atStart c cs).1] = u ++ e) (hne : e ≠ [])
    (he : isBlankText e = true) : InnerText atStart u := by
  rw [withoutComments, List.flatMap_singleton] at hu
  have hsingle {d : Char} (h : [d] = u ++ e) : InnerText atStart u := by
    obtain ⟨rfl, -⟩ | ⟨-, rfl⟩ := List.append_eq_singleton_iff.mp h.symm
    · exact innerText_nil
    · exact absurd rfl hne
  cases h with
  | comment hkind =>
    rw [if_pos hkind] at hu
    exact hsingle hu
  | symbol hfirst =>
    rw [hfirst, if_neg (by simp)] at hu
    exact hsingle hu
  | @word w rest hfirst _ hw _ _ =>
    rw [hfirst, if_neg (by simp)] at hu
    obtain ⟨d, hd⟩ := List.exists_mem_of_ne_nil _ hne
    have hword : isWordChar d = true := by
      refine hw d ?_
      rw [show w = u ++ e from hu]
      exact List.mem_append_right _ hd
    have hblank := Text.isBlankText_iff.mp he d hd
    rw [isBlank_of_isWordChar hword] at hblank
    cases hblank
  | @literal kind hkind hc hfirst =>
    have hcomment : kind ≠ .comment := by rcases hkind with rfl | rfl <;> simp
    rw [hfirst, if_neg hcomment] at hu
    cases u with
    | nil => exact innerText_nil
    | cons d t =>
      obtain ⟨rfl, ht⟩ := List.cons.inj hu
      refine innerText_literal hc ?_
      rcases Literal.scan_leaves_of_prefix ⟨e, ht.symm⟩ with hrest | hrest
      · rw [hrest]
        exact innerText_nil
      · rw [hrest]
        exact innerText_backslash

/-- The first piece of a run is the first piece of what the run shows, with a space for a comment.
-/
theorem innerText_of_first {c : Char} {cs : List Char} (h : Piece.FirstInner atStart c cs)
    (hrest : pieces ((Piece.first atStart c cs).1.leavesAtStart atStart)
      (Piece.first atStart c cs).2 = run ++ after) (hin : ∀ p ∈ run, p.isInner = true)
    (hu : u ++ e = withoutComments run)
    (ht : InnerText ((Piece.first atStart c cs).1.leavesAtStart atStart) u) :
    InnerText atStart (withoutComments [(Piece.first atStart c cs).1] ++ u) := by
  have hhead : ∀ d ∈ u.head?, d = ' ' ∨ (Piece.first atStart c cs).2.head? = some d := by
    intro d hd
    obtain ⟨t, rfl⟩ := List.head?_eq_some_iff.mp hd
    exact head?_withoutComments hrest d (by rw [← hu]; rfl)
  rw [withoutComments, List.flatMap_singleton]
  cases h with
  | comment hkind =>
    rw [if_pos hkind]
    have hleaves : (Piece.first atStart c cs).1.leavesAtStart atStart = atStart := by
      rw [Piece.leavesAtStart, hkind]
    rw [hleaves] at ht
    refine innerText_symbol (by decide) (by decide) (fun h => absurd h (by decide))
      (fun _ => by decide) ?_
    rwa [show isBlank ' ' = true from rfl, Bool.and_true]
  | symbol hfirst hw hm hcomment hstart =>
    rw [hfirst] at ht hhead ⊢
    rw [if_neg (by simp)]
    refine innerText_symbol hw hm (fun hc => ?_) hstart ?_
    · constructor <;>
        (intro hd
         rcases hhead _ hd with hd' | hd'
         · exact absurd hd' (by decide))
      · exact (hcomment hc).1 hd'
      · exact (hcomment hc).2 hd'
    · simpa [Piece.leavesAtStart, isBlankText] using ht
  | @word w rest hfirst hne hw helse hwhole =>
    rw [hfirst] at ht hhead ⊢
    rw [if_neg (by simp)]
    have hblank : isBlankText w = false := by
      obtain ⟨d, hd⟩ := List.exists_mem_of_ne_nil _ hne
      rw [isBlankText, List.all_eq_false]
      exact ⟨d, hd, by simp [isBlank_of_isWordChar (hw d hd)]⟩
    refine innerText_word hne hw helse (fun d hd => ?_) ?_
    · rcases hhead d hd with rfl | hd'
      · decide
      · exact hwhole d hd'
    · simpa [Piece.leavesAtStart, hblank] using ht
  | @literal kind hkind hc hfirst =>
    have hcomment : kind ≠ .comment := by rcases hkind with rfl | rfl <;> simp
    rw [hfirst] at ht hrest ⊢
    rw [if_neg hcomment, List.cons_append]
    refine innerText_literal hc ?_
    have hleaves : Piece.leavesAtStart atStart
        ⟨kind, c :: (Literal.scan (· == '\n') c cs).1⟩ = false := by
      have hquote : isBlank c = false := by rcases hc with rfl | rfl <;> rfl
      rcases hkind with rfl | rfl <;> simp [Piece.leavesAtStart, isBlankText, hquote]
    rw [hleaves] at ht
    rcases Literal.closed_or_open (· == '\n') c cs with hclosed | ⟨hopen, hnone⟩
    · rwa [hclosed]
    · rw [hopen]
      rcases withoutComments_of_scan_nil hrest hin hnone with hshow | hshow
      · rw [hshow] at hu
        obtain ⟨rfl, -⟩ := List.append_eq_nil_iff.mp hu
        exact innerText_nil
      · rw [hshow] at hu
        obtain ⟨rfl, -⟩ | ⟨rfl, -⟩ := List.append_eq_singleton_iff.mp hu
        · exact innerText_nil
        · have hleft : (Literal.scan (· == '\n') c ['\\']).2 = ['\\'] := by
            rcases hc with rfl | rfl <;> decide
          rw [hleft]
          exact innerText_backslash

/-- What a run of pieces shows, without white space at its end, has pieces that may all stand inside
a statement. -/
theorem innerText_of_run (h : pieces atStart ds = run ++ after)
    (hin : ∀ p ∈ run, p.isInner = true) (hu : u ++ e = withoutComments run)
    (he : isBlankText e = true) : InnerText atStart u := by
  induction run generalizing atStart ds u with
  | nil =>
    obtain ⟨rfl, -⟩ := List.append_eq_nil_iff.mp hu
    exact innerText_nil
  | cons p run ih =>
    cases ds with
    | nil => simp [pieces] at h
    | cons c cs =>
      rw [pieces, List.cons_append] at h
      obtain ⟨rfl, hrest⟩ := List.cons.inj h
      obtain ⟨hp, hin⟩ := List.forall_mem_cons.mp hin
      have hfirst := Piece.firstInner hp
      rw [← List.singleton_append, withoutComments_append] at hu
      rcases List.append_eq_append_iff.mp hu with ⟨e', hshow, he'⟩ | ⟨u', rfl, hu'⟩
      · cases e' with
        | nil =>
          have hu' : [] ++ e = withoutComments run := by rw [he']; rfl
          have := innerText_of_first hfirst hrest hin hu' (ih hrest hin hu')
          rwa [hshow, List.append_nil, List.append_nil] at this
        | cons d e' =>
          rw [he', Text.isBlankText_append, Bool.and_eq_true] at he
          exact innerText_of_cut hfirst hshow (List.cons_ne_nil _ _) he.1
      · exact innerText_of_first hfirst hrest hin hu'.symm (ih hrest hin hu'.symm)

end Run

/-! ## Where statements begin -/

/-- The text of a statement under way begins with a character that is neither white space nor a hash
sign. -/
def Begun (u : Option Unfinished) : Prop :=
  ∀ v ∈ u, ∃ c t, v.text = c :: t ∧ isBlank c = false ∧ c ≠ '#'

section Begun

variable {u : Option Unfinished} {offset : Nat} {atStart : Bool}

theorem Begun.none : Begun none := by simp [Begun]

theorem Begun.pad (h : Begun u) (text : List Char) : Begun (u.map (.pad text)) := by
  cases u with
  | none => exact .none
  | some w =>
    intro v hv
    obtain rfl := Option.some.inj hv
    obtain ⟨c, t, ht, hc⟩ := h w rfl
    exact ⟨c, t ++ text, by simp [Unfinished.pad, ht], hc⟩

theorem Begun.extend (h : Begun u) {text : List Char}
    (htext : u = Option.none → ∃ c t, text = c :: t ∧ isBlank c = false ∧ c ≠ '#') (span : Span) :
    Begun (some (.extend text span u)) := by
  intro v hv
  obtain rfl := Option.some.inj hv
  cases u with
  | none => exact htext rfl
  | some w =>
    obtain ⟨c, t, ht, hc⟩ := h w rfl
    exact ⟨c, t ++ text, by simp [Unfinished.extend, ht], hc⟩

theorem Begun.head?_finish (h : Begun u) : ∀ f ∈ Unfinished.finish u, f.text.head? ≠ some '#' := by
  cases u with
  | none => simp [Unfinished.finish]
  | some v =>
    obtain ⟨c, t, ht, hblank, hhash⟩ := h v rfl
    have htrim : trim v.text = Text.trimEnd (c :: t) := by
      rw [ht]
      exact Text.trim_eq_trimEnd (by simpa using hblank)
    obtain ⟨b, -, hb⟩ := Text.exists_eq_trimEnd_append (c :: t)
    have hhead : (trim v.text).head? ≠ some '#' := by
      rw [htrim]
      intro hh
      obtain ⟨t', ht'⟩ := List.head?_eq_some_iff.mp hh
      rw [ht', List.cons_append] at hb
      exact hhash (List.cons.inj hb).1
    intro f hf
    by_cases hempty : (trim v.text).isEmpty = true
    · simp [Unfinished.finish, hempty] at hf
    · obtain rfl : f = ⟨trim v.text, v.span⟩ := by simpa [Unfinished.finish, hempty] using hf
      exact hhead

/-- A piece that is more than white space and comments begins with more than that. -/
theorem Piece.isBlank_of_head? {p : Piece} (hs : p.Shaped) (hin : p.isInner = true)
    (hi : p.isIgnored = false) : ∀ c ∈ p.text.head?, isBlank c = false := by
  obtain ⟨hkind, hblank⟩ := of_isIgnored_eq_false _ hi
  obtain ⟨kind, text⟩ := p
  cases kind with
  | string | character =>
    obtain ⟨t, rfl, -⟩ := hs
    simp only [List.head?_cons, Option.mem_some_iff, forall_eq']
    rfl
  | word => exact fun c hc => isBlank_of_isWordChar (hs.2.2 c (List.mem_of_mem_head? hc))
  | symbol =>
    obtain ⟨c, rfl, -⟩ := hs
    simpa [isBlankText] using hblank
  | comment => exact absurd rfl hkind
  | directive | newline | openBrace | closeBrace | otherwise => exact absurd hin Bool.false_ne_true

/-- The first character of a piece with which a statement begins. -/
theorem Piece.head_of_isInner {c : Char} {cs : List Char} (hstart : atStart = true)
    (hin : (first atStart c cs).1.isInner = true) (hi : (first atStart c cs).1.isIgnored = false) :
    isBlank c = false ∧ c ≠ '#' := by
  refine ⟨isBlank_of_head? (shaped_first ..) hin hi c rfl, ?_⟩
  rintro rfl
  have hdirective : (first atStart '#' cs).1.kind = .directive := by simp [first, kindAt, hstart]
  simp [isInner, hdirective] at hin

/-- No fragment begins with a hash sign: where a statement may begin, that begins a directive. -/
theorem head?_ne_hash (ha : atStart = u.isNone) (hu : Begun u) (cs : List Char) :
    ∀ f ∈ assemble offset u (pieces atStart cs), f.text.head? ≠ some '#' := by
  fun_induction pieces atStart cs generalizing offset u with
  | case1 => exact hu.head?_finish
  | case2 atStart c cs p =>
    rename_i ih
    have hshaped : p.Shaped := Piece.shaped_first atStart c cs
    rcases p.newline_or_standsAlone_or_directive_or_isInner with hk | hk | hk | hk
    · rw [assemble_newline hk, List.forall_mem_append]
      exact ⟨hu.head?_finish, ih (Piece.leavesAtStart_newline hk) .none⟩
    · rw [assemble_standsAlone hk, List.forall_mem_append, List.forall_mem_cons]
      refine ⟨hu.head?_finish, ?_, ih (Piece.leavesAtStart_standsAlone hk) .none⟩
      rcases Piece.eq_of_standsAlone hshaped hk with h | h | h <;> simp [h]
    · have hstart : atStart = true := Piece.atStart_of_kind_first hk
      rw [assemble_directive hk]
      exact ih ((Piece.leavesAtStart_directive hk).trans ha) hu
    · have hleaves : p.leavesAtStart atStart = (atStart && p.isIgnored) :=
        Piece.leavesAtStart_inner hk
      cases hi : p.isIgnored with
      | true =>
        rw [assemble_pad hi hk]
        refine ih ?_ (hu.pad _)
        rw [hleaves, hi, Bool.and_true, ha]
        cases u <;> rfl
      | false =>
        rw [assemble_extend hi hk]
        refine ih (by rw [hleaves, hi, Bool.and_false]; rfl) (hu.extend (fun hnone => ?_) _)
        have hstart : atStart = true := by rw [ha, hnone]; rfl
        obtain ⟨hkind, hblank⟩ := p.of_isIgnored_eq_false hi
        rw [withoutComments, List.flatMap_singleton, if_neg hkind]
        exact ⟨c, _, rfl, Piece.head_of_isInner hstart hk hi⟩

end Begun

/-! ## Each fragment is one fragment by itself -/

/-- A statement shows white space at its end only. -/
theorem IsStatement.exists_trim_append {run : List Piece} (h : IsStatement run)
    (hs : ∀ p ∈ run, p.Shaped) :
    ∃ e, isBlankText e = true ∧ trim (withoutComments run) ++ e = withoutComments run := by
  obtain ⟨p, hp, hi⟩ := h.head
  obtain ⟨ps, rfl⟩ := List.head?_eq_some_iff.mp hp
  have hin := h.inner p List.mem_cons_self
  have hshaped := hs p List.mem_cons_self
  have hhead : ∀ c ∈ (withoutComments (p :: ps)).head?, isBlank c = false := by
    rw [withoutComments_cons, if_neg (p.of_isIgnored_eq_false hi).1,
      List.head?_append_of_ne_nil _ hshaped.text_ne_nil]
    exact Piece.isBlank_of_head? hshaped hin hi
  obtain ⟨e, he, hshow⟩ := Text.exists_eq_trimEnd_append (withoutComments (p :: ps))
  exact ⟨e, he, by rw [Text.trim_eq_trimEnd hhead, ← hshow]⟩

/-- The text of a fragment is that of a brace or of `else`, or its pieces may all stand inside a
statement. -/
theorem standsAlone_or_innerText {source : List Char} {f : Fragment} (hf : f ∈ tokenize source) :
    (∃ p : Piece, p.Shaped ∧ p.standsAlone = true ∧ f.text = p.text) ∨
      f.text ≠ [] ∧ trim f.text = f.text ∧ ∀ atStart, InnerText atStart f.text := by
  have hshaped := (scanned_pieces true source).shaped_of_mem
  have hhash := head?_ne_hash (u := none) rfl .none source f hf
  obtain ⟨before, run, after, heq, hmade⟩ := (cuts_tokenize source).exists_madeOf f hf
  rcases hmade.shape with hrun | ⟨p, rfl, hp⟩
  · right
    rw [List.append_assoc] at heq
    obtain ⟨b, ds, hds⟩ := exists_pieces_of_append heq
    have htrim : trim f.text = f.text := by rw [hmade.text, Text.trim_trim]
    obtain ⟨hhead, -⟩ := Text.trim_eq_self_iff.mp htrim
    obtain ⟨e, he, hshow⟩ := hrun.exists_trim_append fun p hp => hshaped p (by simp [heq, hp])
    rw [← hmade.text] at hshow
    have hinner := innerText_of_run hds hrun.inner hshow he
    refine ⟨hmade.text ▸ hrun.trim_ne_nil, htrim, hinner.of_head fun c hc => ⟨hhead c hc, ?_⟩⟩
    rintro rfl
    exact hhash hc
  · have hps := hshaped p (by simp [heq])
    exact .inl ⟨p, hps, hp, by rw [hmade.text, Piece.trim_of_standsAlone hps hp]⟩

theorem isLine_of_mem_tokenize {source : List Char} {f : Fragment} (hf : f ∈ tokenize source) :
    IsLine f.text := by
  rcases standsAlone_or_innerText hf with ⟨p, hs, hp, htext⟩ | ⟨hne, htrim, hinner⟩
  · rw [htext]
    refine isLine_alone ?_
    rcases Piece.eq_of_standsAlone hs hp with rfl | rfl | rfl <;> simp
  · exact isLine_of_inner (hinner true) hne htrim

/-- Lines without indentation. -/
theorem printed_joinLines (lines : List (List Char)) : Printed lines (joinLines lines) := by
  induction lines with
  | nil => exact .nil
  | cons line lines ih =>
    cases lines with
    | nil =>
      have h : Printed [line] ([] ++ line) := .last rfl (by simp)
      simpa [joinLines] using h
    | cons line' lines =>
      have h : Printed (line :: line' :: lines)
          ([] ++ line ++ '\n' :: joinLines (line' :: lines)) :=
        .cons rfl (by simp) ih
      simpa [joinLines, List.intercalate] using h

/-- **Scanning again.** The texts of the fragments of a source, with line breaks between them, are
the texts of their own fragments, and reading them gives the program of the source, or fails as
well. -/
theorem tokenize_joinLines (source : List Char) :
    texts (tokenize (joinLines (texts (tokenize source)))) = texts (tokenize source) ∧
    ∀ limit p, Program.ofSource limit (joinLines (texts (tokenize source))) = .ok p ↔
      Program.ofSource limit source = .ok p := by
  have htexts : texts (tokenize (joinLines (texts (tokenize source)))) =
      texts (tokenize source) := by
    refine texts_tokenize_of_printed (printed_joinLines _) ?_
    rw [texts, List.forall_mem_map]
    exact fun f hf => isLine_of_mem_tokenize hf
  exact ⟨htexts, fun limit p => (Block.Similar.of_texts htexts).ofFragments_iff limit p⟩

end Flowchart
