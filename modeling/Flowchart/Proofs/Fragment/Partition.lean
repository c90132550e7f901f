import Mathlib.Data.List.Chain
import Flowchart.Proofs.Fragment.Reading

/-!
# Fragments partition the source

`tokenize_partition`: the spans of the fragments of a source are not empty, lie in it in order and
do not overlap. Each fragment is the slice of its span, with a space for each comment and then
trimmed. It is a brace or `else` if and only if it is made of that piece alone. What lies outside
all spans is white space, comments and directives.

The pieces are those that the source reads as (`IsReading`). A directive need not have a line of its
own: after a brace or `else` in the same line a `#` begins one as well, and what is lost there is the
rest of a line that does not begin with `#` (`tokenize_hash_after_brace`).
-/

namespace Flowchart

open Text (byteLength isBlank isBlankText trim)

/-! ## The text of a statement -/

/-- A piece of a statement that is more than white space shows a character that neither a brace nor,
unless it is a word, `else` has. -/
theorem exists_telling {run : List Piece} {p : Piece} (hp : p ∈ run) (hs : p.Shaped)
    (hi : p.isIgnored = false) (hin : p.isInner = true) :
    ∃ c ∈ trim (withoutComments run),
      c ≠ '{' ∧ c ≠ '}' ∧ (isWordChar c = true → p.kind = .word) := by
  have hk := (p.of_isIgnored_eq_false hi).1
  have hsub : ∀ c ∈ p.text, isBlank c = false → c ∈ trim (withoutComments run) := by
    intro c hc hb
    refine Text.mem_trim_of_not_blank hb (List.mem_flatMap.mpr ⟨p, hp, ?_⟩)
    rwa [if_neg hk]
  obtain ⟨kind, text⟩ := p
  cases kind with
  | string =>
    obtain ⟨t, rfl, -⟩ := hs
    exact ⟨'"', hsub _ List.mem_cons_self rfl, by decide, by decide, fun h => absurd h (by decide)⟩
  | character =>
    obtain ⟨t, rfl, -⟩ := hs
    exact ⟨'\'', hsub _ List.mem_cons_self rfl, by decide, by decide, fun h => absurd h (by decide)⟩
  | word =>
    obtain ⟨hne, -, hw⟩ := hs
    obtain ⟨c, hc⟩ := List.exists_mem_of_ne_nil _ hne
    have hcw := hw c hc
    refine ⟨c, hsub c hc (isBlank_of_isWordChar hcw), ?_, ?_, fun _ => rfl⟩
    all_goals
      rintro rfl
      exact absurd hcw (by decide)
  | symbol =>
    obtain ⟨c, rfl, hcw, hc⟩ := hs
    obtain ⟨-, hb⟩ := Piece.of_isIgnored_eq_false _ hi
    refine ⟨c, hsub c (by simp) (by simpa [isBlankText] using hb), ?_, ?_, ?_⟩
    · rintro rfl; simp at hc
    · rintro rfl; simp at hc
    · rw [hcw]; exact fun h => absurd h Bool.false_ne_true
  | comment => exact absurd rfl hk
  | directive | newline | openBrace | closeBrace | otherwise => exact absurd hin Bool.false_ne_true

theorem withoutComments_ne_nil {p : Piece} (h : p.Shaped) : withoutComments [p] ≠ [] := by
  rw [withoutComments, List.flatMap_singleton]
  split
  · exact List.cons_ne_nil _ _
  · exact h.text_ne_nil

/-- What is ignored between two pieces shows as white space. -/
theorem exists_blank_between {p q r : Piece} {qs : List Piece} (hp : p.isIgnored = false)
    (hq : q.Shaped) (hqin : q.isInner = true) (hqi : q.isIgnored = true) (hr : r ∈ qs)
    (hri : r.isIgnored = false) :
    ∃ b ∈ trim (withoutComments (p :: q :: qs)), isBlank b = true := by
  obtain ⟨hpk, hpb⟩ := p.of_isIgnored_eq_false hp
  obtain ⟨b, bs, hb⟩ := List.exists_cons_of_ne_nil (withoutComments_ne_nil hq)
  have hblank : isBlankText (withoutComments [q]) = true :=
    isBlankText_withoutComments (by simpa [hqi] using hqin)
  rw [hb] at hblank
  have heq : withoutComments (p :: q :: qs) = p.text ++ b :: (bs ++ withoutComments qs) := by
    rw [← List.cons_append, ← hb]
    simp [withoutComments, hpk]
  refine ⟨b, ?_, Text.isBlankText_iff.mp hblank b List.mem_cons_self⟩
  rw [heq]
  refine Text.mem_trim_of_between hpb ?_ b
  obtain ⟨c, -, hc, hcqs⟩ := exists_not_blank hr hri
  rw [isBlankText, List.all_eq_false]
  exact ⟨c, List.mem_append_right _ hcqs, by simpa using hc⟩

namespace IsStatement

variable {run : List Piece}

theorem text_ne_brace (h : IsStatement run) (hs : ∀ p ∈ run, p.Shaped) {c : Char}
    (hc : c = '{' ∨ c = '}') : trim (withoutComments run) ≠ [c] := by
  intro ht
  obtain ⟨p, hp, hi⟩ := h.head
  have hp := List.mem_of_mem_head? hp
  obtain ⟨d, hd, ho, hcl, -⟩ := exists_telling hp (hs p hp) hi (h.inner p hp)
  rw [ht, List.mem_singleton] at hd
  subst hd
  exact hc.elim ho hcl

/-- A statement whose text has word characters only is one word: what stands between two words shows
in the text. -/
theorem eq_singleton_of_isWordChar (h : IsStatement run) (hs : ∀ p ∈ run, p.Shaped)
    (hchain : run.IsChain fun p q => p.isWord = true → q.isWord = false)
    (hw : ∀ c ∈ trim (withoutComments run), isWordChar c = true) :
    ∃ p, run = [p] ∧ p.kind = .word := by
  have hword : ∀ p ∈ run, p.isIgnored = false → p.kind = .word := by
    intro p hp hi
    obtain ⟨c, hc, -, -, hcw⟩ := exists_telling hp (hs p hp) hi (h.inner p hp)
    exact hcw (hw c hc)
  have hhead := h.head
  have hlast := h.last
  match run with
  | [] => simp at hhead
  | [p] =>
    have hi : p.isIgnored = false := by simpa using hhead
    exact ⟨p, rfl, hword p (by simp) hi⟩
  | p :: q :: qs =>
    exfalso
    have hi : p.isIgnored = false := by simpa using hhead
    have hpk := hword p (by simp) hi
    have hq : q.isWord = false := by
      obtain _ | _ | ⟨hpq, -⟩ := hchain
      exact hpq (by simp [Piece.isWord, hpk])
    have hqi : q.isIgnored = true := by
      by_contra hn
      have := hword q (by simp) (by simpa using hn)
      simp [Piece.isWord, this] at hq
    obtain ⟨r, hr, hri⟩ := hlast
    rw [List.getLast?_cons_cons] at hr
    have hrqs : r ∈ qs := by
      rcases List.mem_cons.mp (List.mem_of_mem_getLast? hr) with rfl | hrqs
      · rw [hqi] at hri
        cases hri
      · exact hrqs
    obtain ⟨b, hb, hblank⟩ :=
      exists_blank_between hi (hs q (by simp)) (h.inner q (by simp)) hqi hrqs hri
    rw [isBlank_of_isWordChar (hw b hb)] at hblank
    cases hblank

theorem newline_not_mem (h : IsStatement run) (hs : ∀ p ∈ run, p.Shaped) :
    '\n' ∉ withoutComments run := by
  intro hm
  obtain ⟨p, hp, hm⟩ := List.mem_flatMap.mp hm
  split at hm
  · simp at hm
  case isFalse hk => exact Piece.newline_not_mem (hs p hp) (h.inner p hp) hk hm

theorem text_ne_otherwise (h : IsStatement run) (hs : ∀ p ∈ run, p.Shaped)
    (hchain : run.IsChain fun p q => p.isWord = true → q.isWord = false) :
    trim (withoutComments run) ≠ "else".toList := by
  intro ht
  have hw : ∀ c ∈ trim (withoutComments run), isWordChar c = true := by
    rw [ht, ← List.all_eq_true]
    decide
  obtain ⟨p, rfl, hk⟩ := h.eq_singleton_of_isWordChar hs hchain hw
  obtain ⟨kind, text⟩ := p
  obtain rfl : kind = .word := hk
  obtain ⟨-, hne, hall⟩ := hs _ List.mem_cons_self
  refine hne ?_
  have htrim : trim text = text := by
    refine Text.trim_eq_self_iff.mpr ⟨fun c hc => ?_, fun c hc => ?_⟩
    · exact isBlank_of_isWordChar (hall c (List.mem_of_mem_head? hc))
    · exact isBlank_of_isWordChar (hall c (List.mem_of_mem_getLast? hc))
  simpa [withoutComments, htrim] using ht

end IsStatement

/-! ## What fragments are made of -/

/-- The fragment is cut out of its source as the pieces `run` after the pieces `before`. -/
structure CutOut (before run : List Piece) (f : Fragment) : Prop where
  start : f.span.start = byteWidth before
  stop : f.span.stop = byteWidth before + byteWidth run
  start_lt_stop : f.span.start < f.span.stop
  /-- The slice of the span, with a space for each comment and then trimmed. -/
  text : f.text = trim (withoutComments run)
  text_ne_nil : f.text ≠ []
  trimmed : trim f.text = f.text
  newline_not_mem : '\n' ∉ f.text
  isOpen_iff : f.isOpen = true ↔ ∃ p, run = [p] ∧ p.kind = .openBrace
  isClose_iff : f.isClose = true ↔ ∃ p, run = [p] ∧ p.kind = .closeBrace
  isElse_iff : f.isElse = true ↔ ∃ p, run = [p] ∧ p.kind = .otherwise

theorem byteLength_pos {t : List Char} (h : t ≠ []) : 0 < byteLength t := by
  cases t with
  | nil => exact absurd rfl h
  | cons c cs =>
    have := c.utf8Size_pos
    rw [Text.byteLength_cons]
    omega

theorem byteWidth_pos {run : List Piece} (hne : run ≠ []) (hs : ∀ p ∈ run, p.Shaped) :
    0 < byteWidth run := by
  cases run with
  | nil => exact absurd rfl hne
  | cons p ps =>
    have := byteLength_pos (hs p List.mem_cons_self).text_ne_nil
    rw [byteWidth_cons]
    omega

/-- A piece that stands alone is told by its text. -/
theorem Piece.kind_iff_of_standsAlone {p : Piece} (hs : p.Shaped) (h : p.standsAlone = true) :
    (p.text = ['{'] ↔ p.kind = .openBrace) ∧ (p.text = ['}'] ↔ p.kind = .closeBrace) ∧
      (p.text = "else".toList ↔ p.kind = .otherwise) ∧ '\n' ∉ p.text := by
  rcases eq_of_standsAlone hs h with rfl | rfl | rfl <;> decide

/-- A statement is not a piece that stands alone. -/
theorem IsStatement.not_alone {run : List Piece} (h : IsStatement run) {kind : PieceKind}
    (hk : Piece.isInner ⟨kind, []⟩ = false) : ¬∃ p, run = [p] ∧ p.kind = kind := by
  rintro ⟨p, rfl, rfl⟩
  have hin := h.inner p List.mem_cons_self
  rw [Piece.isInner] at hin hk
  rw [hk] at hin
  cases hin

theorem MadeOf.cutOut {before run : List Piece} {f : Fragment} (h : MadeOf (byteWidth before) run f)
    (hs : ∀ p ∈ run, p.Shaped)
    (hchain : run.IsChain fun p q => p.isWord = true → q.isWord = false) :
    CutOut before run f := by
  have hstop : f.span.stop = byteWidth before + byteWidth run := by
    rw [h.span, Span.stop_between]
    omega
  have hstart : f.span.start = byteWidth before := by rw [h.span, Span.start_between]
  have htrimmed : trim f.text = f.text := by rw [h.text, Text.trim_trim]
  rcases h.shape with hst | ⟨p, rfl, hp⟩
  · have hrun : run ≠ [] := by
      obtain ⟨p, hp, -⟩ := hst.head
      exact List.ne_nil_of_mem (List.mem_of_mem_head? hp)
    have hpos := byteWidth_pos hrun hs
    refine ⟨hstart, hstop, by omega, h.text, h.text ▸ hst.trim_ne_nil, htrimmed, ?_, ?_, ?_, ?_⟩
    · rw [h.text]
      exact fun hm => hst.newline_not_mem hs (Text.mem_of_mem_trim hm)
    · rw [Fragment.isOpen, beq_iff_eq, h.text]
      exact iff_of_false (hst.text_ne_brace hs (.inl rfl)) (hst.not_alone rfl)
    · rw [Fragment.isClose, beq_iff_eq, h.text]
      exact iff_of_false (hst.text_ne_brace hs (.inr rfl)) (hst.not_alone rfl)
    · rw [Fragment.isElse, beq_iff_eq, h.text]
      exact iff_of_false (hst.text_ne_otherwise hs hchain) (hst.not_alone rfl)
  · have hpos := byteWidth_pos (List.cons_ne_nil p []) hs
    have hps := hs p List.mem_cons_self
    have htext : f.text = p.text := by rw [h.text, Piece.trim_of_standsAlone hps hp]
    obtain ⟨hopen, hclose, helse, hnl⟩ := Piece.kind_iff_of_standsAlone hps hp
    refine ⟨hstart, hstop, by omega, h.text, htext ▸ hps.text_ne_nil, htrimmed, ?_, ?_, ?_, ?_⟩
    · rwa [htext]
    · simpa [Fragment.isOpen, htext] using hopen
    · simpa [Fragment.isClose, htext] using hclose
    · rw [Fragment.isElse, beq_iff_eq, htext, helse]
      simp

namespace Cuts

variable {offset : Nat} {ps : List Piece} {fs : List Fragment}

theorem le_start (h : Cuts offset ps fs) : ∀ f ∈ fs, offset ≤ f.span.start := by
  intro f hf
  obtain ⟨before, run, after, -, hm⟩ := h.exists_madeOf f hf
  rw [hm.span, Span.start_between]
  omega

theorem pairwise (h : Cuts offset ps fs) : fs.Pairwise fun f g => f.span.stop ≤ g.span.start := by
  induction h with
  | done => exact .nil
  | cut _ made more ih =>
    refine .cons (fun g hg => ?_) ih
    have := more.le_start g hg
    rw [made.span, Span.stop_between]
    omega

/-- Every piece is ignored or lies inside the span of a fragment. -/
theorem covers (h : Cuts offset ps fs) : ∀ q ∈ placed offset ps, q.2.isIgnored = true ∨
    ∃ f ∈ fs, f.span.start ≤ q.1 ∧ q.1 + byteLength q.2.text ≤ f.span.stop := by
  intro q hq
  induction h with
  | done ignored => exact .inl (ignored _ (of_mem_placed hq).2.2)
  | @cut offset gap run rest f fs ignored made _ ih =>
    simp only [placed_append, List.mem_append] at hq
    rcases hq with (hq | hq) | hq
    · exact .inl (ignored _ (of_mem_placed hq).2.2)
    · obtain ⟨h1, h2, -⟩ := of_mem_placed hq
      refine .inr ⟨f, List.mem_cons_self, ?_⟩
      rw [made.span, Span.start_between, Span.stop_between]
      omega
    · rw [byteWidth_append, ← Nat.add_assoc] at hq
      rcases ih hq with hi | ⟨g, hg, hin⟩
      · exact .inl hi
      · exact .inr ⟨g, List.mem_cons_of_mem _ hg, hin⟩

/-- A piece that stands alone is a fragment. -/
theorem alone (h : Cuts offset ps fs) (hs : ∀ p ∈ ps, p.Shaped) :
    ∀ q ∈ placed offset ps, q.2.standsAlone = true →
      ⟨q.2.text, .between q.1 (q.1 + byteLength q.2.text)⟩ ∈ fs := by
  intro q hq ha
  have hi := Piece.isIgnored_of_standsAlone (hs _ (of_mem_placed hq).2.2) ha
  have hgap {start : Nat} {gap : List Piece} (ignored : ∀ p ∈ gap, p.isIgnored = true) :
      q ∉ placed start gap := by
    intro hg
    rw [ignored _ (of_mem_placed hg).2.2] at hi
    cases hi
  induction h with
  | done ignored => exact absurd hq (hgap ignored)
  | @cut offset gap run rest f fs ignored made _ ih =>
    simp only [placed_append, List.mem_append] at hq
    rcases hq with (hq | hq) | hq
    · exact absurd hq (hgap ignored)
    · rcases made.shape with hst | ⟨p, rfl, hp⟩
      · have hin := hst.inner _ (of_mem_placed hq).2.2
        rw [Piece.isInner_of_standsAlone ha] at hin
        cases hin
      · obtain rfl : q = (offset + byteWidth gap, p) := by simpa [placed] using hq
        have hp := hs p (by simp)
        have htext : f.text = p.text := by rw [made.text, Piece.trim_of_standsAlone hp ha]
        have hspan := made.span
        rw [byteWidth_cons, byteWidth_nil, Nat.add_zero] at hspan
        obtain ⟨text, span⟩ := f
        rw [show text = p.text from htext, show span = _ from hspan]
        exact List.mem_cons_self
    · rw [byteWidth_append, ← Nat.add_assoc] at hq
      exact List.mem_cons_of_mem _ (ih (fun p hp => hs p (by simp [hp])) hq)

/-- No span covers a line break or a directive. -/
theorem not_covered (h : Cuts offset ps fs) (hs : ∀ p ∈ ps, p.Shaped) :
    ∀ q ∈ placed offset ps, q.2.isInner = false → q.2.standsAlone = false → ∀ f ∈ fs,
      ¬(f.span.start ≤ q.1 ∧ q.1 + byteLength q.2.text ≤ f.span.stop) := by
  intro q hq hinner halone
  have hpos : 0 < byteLength q.2.text := by
    have hq := hs q.2 (of_mem_placed hq).2.2
    exact byteLength_pos hq.text_ne_nil
  induction h with
  | done => simp
  | @cut offset gap run rest f fs _ made more ih =>
    have hstart : f.span.start = offset + byteWidth gap := by rw [made.span, Span.start_between]
    have hstop : f.span.stop = offset + byteWidth gap + byteWidth run := by
      rw [made.span, Span.stop_between]
      omega
    have hlater := more.le_start
    simp only [placed_append, List.mem_append] at hq
    rcases hq with (hq | hq) | hq
    · obtain ⟨-, hend, -⟩ := of_mem_placed hq
      refine List.forall_mem_cons.mpr ⟨by omega, fun g hg => ?_⟩
      have := hlater g hg
      omega
    · have hmem := (of_mem_placed hq).2.2
      rcases made.shape with hst | ⟨p, rfl, hp⟩
      · rw [hst.inner q.2 hmem] at hinner
        cases hinner
      · rw [List.mem_singleton.mp hmem, hp] at halone
        cases halone
    · rw [byteWidth_append, ← Nat.add_assoc] at hq
      have hbegin := (of_mem_placed hq).1
      refine List.forall_mem_cons.mpr ⟨by omega, ?_⟩
      exact ih (fun p hp => hs p (by simp [hp])) hq

end Cuts

/-- Each fragment is cut out of the pieces of the source. -/
theorem exists_cutOut {source : List Char} {f : Fragment} (hf : f ∈ tokenize source) :
    ∃ before run after, pieces true source = before ++ run ++ after ∧ CutOut before run f := by
  have hscanned := scanned_pieces true source
  obtain ⟨before, run, after, heq, hm⟩ := (cuts_tokenize source).exists_madeOf f hf
  rw [Nat.zero_add] at hm
  have hrun : run <:+: pieces true source := ⟨before, after, heq.symm⟩
  have hchain := List.IsChain.infix hscanned.isChain hrun
  exact ⟨before, run, after, heq,
    hm.cutOut (fun p hp => hscanned.shaped_of_mem p (hrun.subset hp)) hchain⟩

/-- The piece `p`, which comes after the pieces `before`, lies inside the span of a fragment. -/
def Covered (fs : List Fragment) (before : List Piece) (p : Piece) : Prop :=
  ∃ f ∈ fs, f.span.start ≤ byteWidth before ∧ byteWidth before + byteLength p.text ≤ f.span.stop

/-- What lies outside all spans is white space, comments and directives that are the first of their
line. -/
def DropsOnlyLines (fs : List Fragment) (ps : List Piece) : Prop :=
  ∀ before p after, ps = before ++ p :: after → Covered fs before p ∨
    isBlankText p.text = true ∨ p.kind = .comment ∨ p.kind = .directive ∧ LineStart before

theorem mem_placed_of_eq_append {ps before after : List Piece} {p : Piece}
    (h : ps = before ++ p :: after) : (byteWidth before, p) ∈ placed 0 ps := by
  rw [h, placed_append, placed, Nat.zero_add]
  exact List.mem_append_right _ List.mem_cons_self

theorem Piece.isIgnored_cases {p : Piece} (h : p.isIgnored = true) :
    isBlankText p.text = true ∨ p.kind = .comment ∨ p.kind = .directive := by
  cases hk : p.kind <;> simp_all [isIgnored]

/-- Only directives that are not the first of their line are dropped beyond that. -/
theorem dropsOnlyLines_iff {source : List Char} {ps : List Piece}
    (hps : IsReading StatementStart source ps) :
    DropsOnlyLines (tokenize source) ps ↔ ¬HashAfterAlone ps := by
  rw [hashAfterAlone_iff hps]
  obtain rfl := isReading_iff.mp hps
  have hshaped := (scanned_pieces true source).shaped_of_mem
  have hcuts := cuts_tokenize source
  constructor
  · rintro h ⟨before, p, after, heq, hk, hline⟩
    rcases h before p after heq with ⟨f, hf, hcover⟩ | hblank | hcomment | ⟨-, hfirst⟩
    · exact hcuts.not_covered hshaped _ (mem_placed_of_eq_append heq) (by simp [Piece.isInner, hk])
        (by simp [Piece.standsAlone, hk]) f hf hcover
    · obtain ⟨-, hhash⟩ := (hps.first before p after heq).of_directive hk
      have := Text.isBlankText_iff.mp hblank '#' (List.mem_of_mem_head? hhash)
      exact absurd this (by decide)
    · rw [hk] at hcomment
      cases hcomment
    · exact hline hfirst
  · intro h before p after heq
    rcases hcuts.covers _ (mem_placed_of_eq_append heq) with hignored | hcover
    · rcases Piece.isIgnored_cases hignored with hblank | hcomment | hk
      · exact .inr (.inl hblank)
      · exact .inr (.inr (.inl hcomment))
      · refine .inr (.inr (.inr ⟨hk, ?_⟩))
        by_contra hline
        exact h ⟨before, p, after, heq, hk, hline⟩
    · exact .inl hcover

/-- **Partition.** A source reads in one way if directives begin wherever a statement may begin. The
spans of the fragments lie in it in order, without overlap, and each fragment is cut out of the
pieces that the source reads as. Every piece outside the spans is white space, a comment or a
directive; every brace and every `else` among the pieces is a fragment. All these directives are the
first of their line, and they are all the lines that begin with `#`, if and only if no `#` comes
first after a brace or `else`. -/
theorem tokenize_partition (source : List Char) :
    ∃ ps, IsReading StatementStart source ps ∧
      (∀ qs, IsReading StatementStart source qs → qs = ps) ∧
      (tokenize source).Pairwise (fun f g => f.span.stop ≤ g.span.start) ∧
      (∀ f ∈ tokenize source, ∃ before run after, ps = before ++ run ++ after ∧
        source = before.flatMap Piece.text ++ run.flatMap Piece.text ++ after.flatMap Piece.text ∧
        CutOut before run f) ∧
      (∀ before p after, ps = before ++ p :: after →
        (p.isIgnored = true ∨ Covered (tokenize source) before p) ∧
        (p.standsAlone = true → ⟨p.text, .between (byteWidth before)
          (byteWidth before + byteLength p.text)⟩ ∈ tokenize source)) ∧
      (DropsOnlyLines (tokenize source) ps ↔ ¬HashAfterAlone ps) ∧
      (IsReading LineStart source ps ↔ ¬HashAfterAlone ps) := by
  have hreading : IsReading StatementStart source (pieces true source) := isReading_iff.mpr rfl
  have hshaped := (scanned_pieces true source).shaped_of_mem
  have hcuts := cuts_tokenize source
  refine ⟨pieces true source, hreading, fun qs => isReading_iff.mp, hcuts.pairwise, fun f hf => ?_,
    fun before p after heq => ?_, dropsOnlyLines_iff hreading, isReading_lineStart_iff hreading⟩
  · obtain ⟨before, run, after, heq, hcut⟩ := exists_cutOut hf
    refine ⟨before, run, after, heq, ?_, hcut⟩
    rw [← List.flatMap_append, ← List.flatMap_append, ← heq, hreading.text]
  · have hplace := mem_placed_of_eq_append heq
    exact ⟨hcuts.covers _ hplace, hcuts.alone hshaped _ hplace⟩

/-- After a brace in the same line a `#` is taken for a directive, and no fragment has the statements
after it. -/
theorem tokenize_hash_after_brace :
    let source := "\x7d # y; z = 1;".toList
    tokenize source = [⟨['\x7d'], .between 0 1⟩] ∧
      ¬∀ ps, IsReading StatementStart source ps → DropsOnlyLines (tokenize source) ps := by
  intro source
  have htokens : tokenize source = [⟨['\x7d'], .between 0 1⟩] := by decide +kernel
  have hpieces : pieces true source = [⟨.closeBrace, ['\x7d']⟩, ⟨.symbol, [' ']⟩] ++
      ⟨.directive, "# y; z = 1;".toList⟩ :: [] := by decide +kernel
  have hafter : AfterAlone [⟨.closeBrace, ['\x7d']⟩, ⟨.symbol, [' ']⟩] :=
    ⟨[], ⟨.closeBrace, ['\x7d']⟩, [⟨.symbol, [' ']⟩], rfl, rfl, by decide⟩
  have hreading : IsReading StatementStart source (pieces true source) := isReading_iff.mpr rfl
  refine ⟨htokens, fun h => ?_⟩
  exact (dropsOnlyLines_iff hreading).mp (h _ hreading) ⟨_, _, _, hpieces, hafter, rfl⟩

end Flowchart
