import Flowchart.Proofs.Fragment.Insertion
import Flowchart.Proofs.Fragment.Joined

/-!
# A semicolon after the last fragment of a line

`terminates_iff`: a semicolon put after the last character of a line goes to the last fragment of
the line, and changes nothing else, if and only if the text up to it ends in a piece that shows its
own text inside a statement (`endsInText`): a literal, a word or a symbol, but no comment,
directive, brace or `else`.

* `exists_assemble_inner`: the statement that pieces inside it make.
* `EndsInRun`: the pieces at the end of a text and the padding after it stand inside one statement.
* `Apart`: the padding after a text is a statement of its own, or goes to one that ends in a space.
-/

namespace Flowchart

open Text (byteLength isBlank isBlankText trim trimEnd)

/-! ## Pieces inside a statement -/

section Inner

variable {ps qs : List Piece} {u : Option Unfinished} {z : List Char}

/-- A text that does not end in white space is not only white space. -/
theorem not_isBlankText_of_getLast? {t : List Char} (hne : t ≠ [])
    (hlast : ∀ c ∈ t.getLast?, isBlank c = false) : isBlankText t = false := by
  rw [← Bool.not_eq_true, Text.isBlankText_iff]
  intro hblank
  have hshown := hlast _ (List.getLast?_eq_some_getLast hne)
  rw [hblank _ (List.getLast_mem hne)] at hshown
  cases hshown

theorem byteLength_trimEnd_le (t : List Char) : byteLength (trimEnd t) ≤ byteLength t := by
  obtain ⟨b, -, ht⟩ := Text.exists_eq_trimEnd_append t
  have hlength := congrArg byteLength ht
  rw [Text.byteLength_append] at hlength
  omega

theorem isIgnored_eq_isBlankText {p : Piece} (hin : p.isInner = true) (hk : p.kind ≠ .comment) :
    p.isIgnored = isBlankText p.text := by
  cases hkind : p.kind <;> simp_all [Piece.isIgnored, Piece.isInner]

theorem span_extend (start stop : Nat) (text : List Char) (u : Option Unfinished) :
    (Unfinished.extend text (.between start stop) u).span.start ≤ start ∧
      stop ≤ (Unfinished.extend text (.between start stop) u).span.stop := by
  cases u with
  | none => exact ⟨Nat.le_refl _, Nat.le_max_right _ _⟩
  | some u =>
    exact ⟨Nat.min_le_right _ _, Nat.le_trans (Nat.le_max_right _ _) (Nat.le_max_right _ _)⟩

/-- Pieces inside a statement end no fragment. The span of the statement reaches to the last of
their characters that is not white space. -/
theorem exists_assemble_inner (h : ∀ p ∈ ps, p.isInner = true ∧ p.kind ≠ .comment) (offset : Nat)
    (u : Option Unfinished) :
    ∃ v, (∀ qs, assemble offset u (ps ++ qs) = assemble (offset + byteWidth ps) v qs) ∧
      (isBlankText (ps.flatMap Piece.text) = false → ∃ w, v = some w ∧
        w.span.start < offset + byteWidth ps ∧
        offset + byteLength (trimEnd (ps.flatMap Piece.text)) ≤ w.span.stop) := by
  -- From the end, since that is where a span grows.
  induction ps using List.reverseRecOn with
  | nil => exact ⟨u, fun qs => rfl, fun hblank => by simp [isBlankText] at hblank⟩
  | append_singleton ps p ih =>
    obtain ⟨hps, hp⟩ := List.forall_mem_append.mp h
    obtain ⟨hin, hk⟩ := hp p (List.mem_singleton_self p)
    obtain ⟨v, hv, hspan⟩ := ih hps
    have hwidth : byteWidth (ps ++ [p]) = byteWidth ps + byteLength p.text := by simp
    rw [hwidth, ← Nat.add_assoc, List.flatMap_append, List.flatMap_singleton]
    cases hi : p.isIgnored with
    | true =>
      have hblank : isBlankText p.text = true := isIgnored_eq_isBlankText hin hk ▸ hi
      refine ⟨v.map (.pad (withoutComments [p])), fun qs => ?_, fun htext => ?_⟩
      · rw [List.append_assoc, hv, List.singleton_append, assemble_pad hi hin]
      · rw [Text.isBlankText_append, hblank, Bool.and_true] at htext
        obtain ⟨w, rfl, hstart, hstop⟩ := hspan htext
        refine ⟨w.pad _, rfl, Nat.lt_add_right _ hstart, ?_⟩
        rwa [Text.trimEnd_append_blank hblank]
    | false =>
      have hne : p.text ≠ [] := by
        intro hnil
        have hblank : isBlankText p.text = false := isIgnored_eq_isBlankText hin hk ▸ hi
        rw [hnil] at hblank
        cases hblank
      have hpos := byteLength_pos hne
      obtain ⟨hstart, hstop⟩ := span_extend (offset + byteWidth ps)
        (offset + byteWidth ps + byteLength p.text) (withoutComments [p]) v
      refine ⟨_, fun qs => ?_, fun _ => ⟨_, rfl, Nat.lt_of_le_of_lt hstart (by omega), ?_⟩⟩
      · rw [List.append_assoc, hv, List.singleton_append, assemble_extend hi hin]
      · have hle := byteLength_trimEnd_le (ps.flatMap Piece.text ++ p.text)
        rw [Text.byteLength_append, ← byteWidth] at hle
        exact Nat.le_trans (by omega) hstop

theorem assemble_pieces_line {offset : Nat} (hz : AtLineEnd z) :
    assemble offset u (pieces true z) =
      Unfinished.finish u ++ assemble offset none (pieces true z) := by
  rcases hz.eq_nil_or with rfl | ⟨y, rfl⟩
  · rw [pieces]
    exact (List.append_nil _).symm
  · rw [pieces_newline, assemble_newline rfl, assemble_newline rfl]
    rfl

theorem finish_of_texts {w : Unfinished} {t : List Char}
    (h : texts (Unfinished.finish (some w)) = [t]) :
    Unfinished.finish (some w) = [⟨t, w.span⟩] := by
  unfold Unfinished.finish at h ⊢
  cases hempty : (trim w.text).isEmpty <;> simp_all [texts]

end Inner

/-! ## Texts that end in a statement's own text -/

/-- The text ends in a piece that shows its own text inside a statement. -/
def endsInText (text : List Char) : Bool :=
  (pieces true text).getLast?.any fun p => p.isInner && p.kind != .comment

/-- The pieces `init` of a text and the text `last` after them, which stands inside a statement
together with any padding after it. -/
structure EndsInRun (cs : List Char) (init : List Piece) (last : List Char) : Prop where
  text_eq : cs = init.flatMap Piece.text ++ last
  ne_nil : last ≠ []
  exists_run : ∀ w z, IsPadding w → '\n' ∉ w → AtLineEnd z → ∃ run,
    (∀ p ∈ run, p.isInner = true ∧ p.kind ≠ .comment) ∧ run.flatMap Piece.text = last ++ w ∧
      pieces true (cs ++ w ++ z) = init ++ (run ++ pieces true z)

section Ends

variable {b : Bool} {cs tail t w z : List Char} {c : Char}

/-- Pieces inside a statement, up to the end of the line. -/
theorem InnerText.pieces_line (h : InnerText b t) (hz : AtLineEnd z) :
    pieces b (t ++ z) = pieces b t ++ pieces true z := by
  rcases hz.eq_nil_or with rfl | ⟨y, rfl⟩
  · rw [pieces.eq_def true, List.append_nil, List.append_nil]
  · rw [pieces_append_newline fun p hp => (h p hp).2, pieces_newline]

theorem exists_endsInRun (h : endsInText cs = true) : ∃ init last, EndsInRun cs init last := by
  obtain ⟨init, b, tail, htail, hpieces⟩ := exists_unended true cs
  have hcs := hpieces [] AtLineEnd.nil.separatorFollows
  rw [List.append_nil, List.append_nil] at hcs
  have htext : cs = init.flatMap Piece.text ++ tail := by
    rw [← flatMap_text_pieces b tail, ← List.flatMap_append, ← hcs, flatMap_text_pieces]
  cases htail with
  | nothing =>
    rw [pieces, List.append_nil] at hcs
    rw [endsInText, hcs, Option.any_eq_true] at h
    obtain ⟨p, hp, hin⟩ := h
    obtain ⟨front, rfl⟩ := List.getLast?_eq_some_iff.mp hp
    rw [Bool.and_eq_true, bne_iff_ne] at hin
    have hshaped := (scanned_pieces true cs).shaped_of_mem p (by simp [hcs])
    refine ⟨front, p.text, by simpa using htext, hshaped.text_ne_nil, fun w z hw hn hz => ?_⟩
    have hline := (hw.innerText hn b).pieces_line hz
    refine ⟨p :: pieces b w, List.forall_mem_cons.mpr ⟨hin, hw.innerText hn b⟩, ?_, ?_⟩
    · rw [List.flatMap_cons, flatMap_text_pieces]
    · rw [List.append_assoc, hpieces _ (hw.separatorFollows hz), List.nil_append, hline]
      simp
  | @literal quote t hq ht =>
    refine ⟨init, quote :: t, htext, List.cons_ne_nil _ _, fun w z hw hn hz => ?_⟩
    have hinner : InnerText b (quote :: (t ++ w)) := .of_waits hq ht hw hn
    refine ⟨_, hinner, flatMap_text_pieces _ _, ?_⟩
    rw [List.append_assoc, hpieces _ (hw.separatorFollows hz), ← hinner.pieces_line hz]
    simp
  -- A comment or directive that what follows may continue is the last piece.
  | line hkind _ hfirst =>
    have hline := pieces_line hkind hfirst []
    rw [List.append_nil, List.dropWhile_nil, pieces] at hline
    rw [endsInText, hcs, hline] at h
    rcases hkind with rfl | rfl <;> simp [Piece.isInner] at h
  | @block t ht =>
    have hblock : pieces b ('/' :: '*' :: t ++ []) = _ := pieces_block ht (by simp)
    rw [List.append_nil, Piece.scanComment, pieces] at hblock
    rw [endsInText, hcs, hblock] at h
    simp at h

/-- The fragments of a text with padding after it. The one that the padding goes to has a span that
reaches to the end of the text. -/
theorem EndsInRun.exists_tokenize {init : List Piece} {last : List Char}
    (h : EndsInRun cs init last) (hlast : ∀ c ∈ cs.getLast?, isBlank c = false) :
    ∃ fs t, t.getLast? = cs.getLast? ∧ ∀ w z, IsPadding w → '\n' ∉ w → AtLineEnd z → ∃ s,
      tokenize (cs ++ w ++ z) = fs ++ ⟨trim (t ++ w), s⟩ ::
        assemble (byteLength (cs ++ w)) none (pieces true z) ∧
      s.start < byteLength (cs ++ w) ∧ byteLength cs ≤ s.stop := by
  obtain ⟨run, -, -, hpieces⟩ := h.exists_run [] [] .nil (by simp) .nil
  have hscanned : Scanned (none : Option Unfinished).isNone (init ++ (run ++ pieces true [])) :=
    hpieces ▸ scanned_pieces true _
  have hnone : Pending 0 [] none := .between (by simp)
  obtain ⟨fs, -, -, v, -, -, -, hfs⟩ := exists_pending hscanned hnone
  simp only [byteWidth_nil, Nat.add_zero, List.nil_append, Nat.zero_add] at hfs
  have hend : last.getLast? = cs.getLast? := by
    rw [h.text_eq, List.getLast?_append_of_ne_nil _ h.ne_nil]
  have htrim : trimEnd last = last := Text.trimEnd_eq_self_iff.mpr (hend ▸ hlast)
  refine ⟨fs, underWay v ++ last, ?_, fun w z hw hn hz => ?_⟩
  · rw [List.getLast?_append_of_ne_nil _ h.ne_nil, hend]
  obtain ⟨run, hrun, hflat, hpieces⟩ := h.exists_run w z hw hn hz
  obtain ⟨v', hv', hspan⟩ := exists_assemble_inner hrun (byteWidth init) v
  have hwidth : byteLength (cs ++ w) = byteWidth init + byteWidth run := by
    rw [byteWidth, byteWidth, hflat, h.text_eq]
    simp
  have hshown : isBlankText last = false := not_isBlankText_of_getLast? h.ne_nil (hend ▸ hlast)
  rw [hflat, ← hwidth] at hspan
  obtain ⟨u, rfl, hstart, hstop⟩ :=
    hspan (by rw [Text.isBlankText_append, hshown, Bool.false_and])
  refine ⟨u.span, ?_, hstart, ?_⟩
  · have hfinish : Unfinished.finish (some u) = [⟨trim (underWay v ++ last ++ w), u.span⟩] := by
      have htexts : texts (assemble (byteWidth init) v run) = _ := texts_assemble_inner hrun
      have hrunEnd := hv' []
      rw [List.append_nil, assemble] at hrunEnd
      rw [hrunEnd, hflat, ← List.append_assoc] at htexts
      refine finish_of_texts (htexts.trans ?_)
      have hne : trim (underWay v ++ last ++ w) ≠ [] := by
        rw [Ne, Text.trim_eq_nil_iff, Text.isBlankText_append, Text.isBlankText_append, hshown]
        simp
      rw [finished, if_neg (by simpa using hne)]
    rw [tokenize, hpieces, hfs, hv', ← hwidth, assemble_pieces_line hz, hfinish]
    rfl
  · have hcs : byteLength cs = byteWidth init + byteLength last := by
      rw [h.text_eq, Text.byteLength_append, byteWidth]
    cases hw : isBlankText w with
    | true =>
      rw [Text.trimEnd_append_blank hw, htrim] at hstop
      omega
    | false =>
      rw [Text.trimEnd_append_of_not_blank hw, Text.byteLength_append] at hstop
      omega

/-! ## Texts that end otherwise -/

/-- The padding after a text is a statement of its own, or it goes to one that ends in white space.
-/
structure Apart (cs : List Char) (before : List (List Char)) (text : List Char) : Prop where
  blank : ∀ c ∈ text.getLast?, isBlank c = true
  texts_eq : ∀ w z, IsPadding w → '\n' ∉ w → AtLineEnd z →
    texts (tokenize (cs ++ w ++ z)) = before ++ (finished (text ++ w) ++ texts (tokenize z))

/-- What is under way after a piece that does not show its own text inside a statement. -/
theorem exists_step_of_not_text {p : Piece} {v : Option Unfinished} (offset : Nat)
    (hp : (p.isInner && p.kind != .comment) = false) (hs : p.kind = .directive → v = none) :
    ∃ fs v', (∀ c ∈ (underWay v').getLast?, isBlank c = true) ∧
      ∀ qs, assemble offset v (p :: qs) = fs ++ assemble (offset + byteLength p.text) v' qs := by
  rcases p.newline_or_standsAlone_or_directive_or_isInner with hk | hk | hk | hk
  · exact ⟨Unfinished.finish v, none, by simp [underWay], fun qs => assemble_newline hk⟩
  · refine ⟨Unfinished.finish v ++ [⟨p.text, .between offset (offset + byteLength p.text)⟩], none,
      by simp [underWay], fun qs => ?_⟩
    rw [assemble_standsAlone hk, List.append_assoc, List.singleton_append]
  · exact ⟨[], v, by simp [hs hk, underWay], fun qs => assemble_directive hk⟩
  · have hcomment : p.kind = .comment := by simpa [hk] using hp
    have hi : p.isIgnored = true := by simp [Piece.isIgnored, hcomment]
    have hspace : withoutComments [p] = [' '] := by simp [withoutComments, hcomment]
    refine ⟨[], v.map (.pad [' ']), ?_, fun qs => by rw [assemble_pad hi hk, hspace]; rfl⟩
    intro c hc
    cases v with
    | none => cases hc
    | some u =>
      obtain rfl : ' ' = c := by simpa [underWay, Unfinished.pad] using hc
      decide

/-- The same after the pieces of a text. -/
theorem exists_underWay_of_not_text {init : List Piece} (hinit : pieces true cs = init)
    (h : endsInText cs = false) :
    ∃ fs v, (∀ c ∈ (underWay v).getLast?, isBlank c = true) ∧
      ∀ qs, assemble 0 none (init ++ qs) = fs ++ assemble (byteLength cs) v qs := by
  have hwidth : byteLength cs = byteWidth init := by rw [← hinit, byteWidth_pieces]
  rw [endsInText, hinit] at h
  rcases List.eq_nil_or_concat init with rfl | ⟨front, p, rfl⟩
  · exact ⟨[], none, by simp [underWay], fun qs => by rw [hwidth]; rfl⟩
  rw [List.concat_eq_append] at h hinit hwidth ⊢
  rw [List.getLast?_concat, Option.any_some] at h
  have hscanned : Scanned (none : Option Unfinished).isNone (front ++ [p]) :=
    hinit ▸ scanned_pieces true cs
  have hnone : Pending 0 [] none := .between (by simp)
  obtain ⟨fs, -, -, v, -, -, hv, hfs⟩ := exists_pending hscanned hnone
  have hstart : p.kind = .directive → v = none := by
    obtain _ | ⟨-, start, -, -⟩ := hv
    exact fun hk => Option.isNone_iff_eq_none.mp (start hk)
  obtain ⟨gs, v', hblank, hgs⟩ := exists_step_of_not_text (byteWidth front) h hstart
  simp only [byteWidth_nil, Nat.add_zero, List.nil_append, Nat.zero_add] at hfs
  refine ⟨fs ++ gs, v', hblank, fun qs => ?_⟩
  rw [List.append_assoc, hfs, List.singleton_append, hgs, hwidth, List.append_assoc]
  simp

theorem endsInComment_or_apart (h : endsInText cs = false) :
    EndsInComment cs ∨ ∃ before text, Apart cs before text := by
  obtain ⟨init, b, tail, htail, hpieces⟩ := exists_unended true cs
  have hcs := hpieces [] AtLineEnd.nil.separatorFollows
  rw [List.append_nil, List.append_nil] at hcs
  cases htail with
  | nothing =>
    rw [pieces, List.append_nil] at hcs
    obtain ⟨fs, v, hblank, hfs⟩ := exists_underWay_of_not_text hcs h
    refine .inr ⟨texts fs, underWay v, hblank, fun w z hw hn hz => ?_⟩
    rw [List.append_assoc, tokenize, hpieces _ (hw.separatorFollows hz), List.nil_append, hfs,
      texts_append, ← texts_assemble_pieces_line (hw.innerText hn b) hz]
    exact congrArg _ (texts_assemble_congr rfl)
  | @literal quote t hq ht =>
    have hinner : InnerText b (quote :: (t ++ [])) := .of_waits hq ht .nil (by simp)
    rw [List.append_nil] at hinner
    have hne : pieces b (quote :: t) ≠ [] := by simp [pieces]
    have hlast := List.getLast?_eq_some_getLast hne
    obtain ⟨hin, hk⟩ := hinner _ (List.getLast_mem hne)
    rw [endsInText, hcs, List.getLast?_append_of_ne_nil _ hne, hlast, Option.any_some, hin] at h
    simp [hk] at h
  | line hkind _ hfirst =>
    obtain ⟨before, -, -, v, -, -, htexts⟩ := exists_texts_tokenize hpieces
    exact .inl (.of_line htexts hkind hfirst)
  | block ht =>
    obtain ⟨before, -, -, v, -, -, htexts⟩ := exists_texts_tokenize hpieces
    exact .inl (.of_block htexts ht)

/-! ## The semicolon -/

/-- A byte of the fragment's span lies between two byte offsets. -/
def Fragment.Meets (start stop : Nat) (f : Fragment) : Prop :=
  f.span.start < stop ∧ start < f.span.stop

/-- A semicolon between two texts goes to the last fragment that has a byte between two offsets,
and changes no other fragment. That fragment ends in no semicolon or brace. -/
def Terminates (start stop : Nat) (front back : List Char) : Prop :=
  ∃ before f after, tokenize (front ++ back) = before ++ f :: after ∧
    f.Meets start stop ∧ (∀ g ∈ after, ¬ g.Meets start stop) ∧
    (∀ c ∈ f.text.getLast?, c ≠ ';' ∧ c ≠ '{' ∧ c ≠ '}') ∧
    texts (tokenize (front ++ ';' :: back)) =
      texts before ++ (f.text ++ [';']) :: texts after

/-- A semicolon goes right behind a statement that ends in no white space. -/
theorem trim_semicolon {t : List Char} (hne : trim t ≠ [])
    (hlast : ∀ c ∈ t.getLast?, isBlank c = false) :
    trim (t ++ [';']) = trim t ++ [';'] ∧ (trim t).getLast? = t.getLast? := by
  obtain ⟨a, b, hb, ht, htrim⟩ := Text.exists_trim_concat hne (c := ';') (by decide)
  have hnil : b = [] := by
    by_contra hb'
    rw [ht, List.getLast?_append_of_ne_nil _ hb'] at hlast
    rw [not_isBlankText_of_getLast? hb' hlast] at hb
    cases hb
  rw [hnil, List.append_nil] at ht
  refine ⟨by rw [htrim, hnil, List.nil_append], ?_⟩
  conv => rhs; rw [ht]
  rw [List.getLast?_append_of_ne_nil _ hne]

/-- A semicolon goes to a statement that ends in white space behind that. -/
theorem length_trim_add_two_le {t : List Char} (hne : trim t ≠ [])
    (hlast : ∀ c ∈ t.getLast?, isBlank c = true) :
    (trim t).length + 2 ≤ (trim (t ++ [';'])).length := by
  obtain ⟨a, b, hb, ht, htrim⟩ := Text.exists_trim_concat hne (c := ';') (by decide)
  have hpos : 0 < b.length := by
    rw [List.length_pos_iff]
    rintro rfl
    have hc := List.getLast?_eq_some_getLast hne
    have hend : t.getLast? = (trim t).getLast? := by
      conv => lhs; rw [ht]
      rw [List.append_nil, List.getLast?_append_of_ne_nil _ hne]
    have hblank := hlast _ (hend.trans hc)
    rw [(Text.trim_eq_self_iff.mp (Text.trim_trim t)).2 _ hc] at hblank
    cases hblank
  rw [htrim, List.length_append, List.length_append, List.length_singleton]
  omega

/-- As many fragments, with one character more in all. -/
theorem Terminates.length_eq {start stop : Nat} {front back : List Char}
    (h : Terminates start stop front back) :
    (texts (tokenize (front ++ ';' :: back))).length = (texts (tokenize (front ++ back))).length ∧
    (texts (tokenize (front ++ ';' :: back))).flatten.length =
      (texts (tokenize (front ++ back))).flatten.length + 1 := by
  obtain ⟨before, f, after, htokens, -, -, -, htexts⟩ := h
  rw [htexts, htokens, texts_append, texts_cons]
  constructor
  · simp
  · simp only [List.flatten_append, List.flatten_cons, List.length_append, List.length_cons,
      List.length_nil]
    omega

theorem le_start_of_mem_assemble {offset : Nat} (z : List Char) :
    ∀ f ∈ assemble offset none (pieces true z), offset ≤ f.span.start := by
  have hscanned : Scanned (none : Option Unfinished).isNone (pieces true z) := scanned_pieces true z
  have hnone : Pending offset [] none := .between (by simp)
  have hcuts := cuts_assemble hscanned hnone
  rw [byteWidth_nil, Nat.add_zero] at hcuts
  exact hcuts.le_start

section Semicolon

variable {start : Nat}

theorem Terminates.of_endsInText (h : endsInText cs = true)
    (hlast : ∀ c ∈ cs.getLast?, isBlank c = false ∧ c ≠ ';' ∧ c ≠ '{' ∧ c ≠ '}')
    (hstart : start < byteLength cs) (hw : isBlankText w = true) (hn : '\n' ∉ w)
    (hz : AtLineEnd z) : Terminates start (byteLength (cs ++ w)) cs (w ++ z) := by
  obtain ⟨init, last, hrun⟩ := exists_endsInRun h
  obtain ⟨fs, t, ht, htokens⟩ := hrun.exists_tokenize fun c hc => (hlast c hc).1
  have hblank : ∀ c ∈ t.getLast?, isBlank c = false := fun c hc => (hlast c (ht ▸ hc)).1
  have hne : t ≠ [] := by
    rintro rfl
    have := List.getLast?_eq_none_iff.mp ht.symm
    simp [this] at hstart
  have hshown : trim t ≠ [] := by
    rw [Ne, Text.trim_eq_nil_iff, not_isBlankText_of_getLast? hne hblank]
    exact Bool.false_ne_true
  have hpadding : IsPadding (';' :: w) := IsPadding.singleton.append (.of_blank hw)
  obtain ⟨s, hold, hbegins, hends⟩ := htokens w z (.of_blank hw) hn hz
  obtain ⟨s', hnew, -, -⟩ := htokens (';' :: w) z hpadding (by simp [hn]) hz
  obtain ⟨hsemicolon, hend⟩ := trim_semicolon hshown hblank
  have htext : trim (t ++ ';' :: w) = trim t ++ [';'] := by
    rw [List.append_cons, Text.trim_append_blank hw, hsemicolon]
  rw [Text.trim_append_blank hw] at hold
  rw [htext] at hnew
  refine ⟨fs, ⟨trim t, s⟩, _, by rw [← List.append_assoc, hold],
    ⟨hbegins, Nat.lt_of_lt_of_le hstart hends⟩, fun g hg hmeets => ?_, fun c hc => ?_, ?_⟩
  · exact absurd hmeets.1 (Nat.not_lt.mpr (le_start_of_mem_assemble z g hg))
  · exact (hlast c (by rw [← ht, ← hend]; exact hc)).2
  · have hcs : cs ++ ';' :: (w ++ z) = cs ++ (';' :: w) ++ z := by simp
    rw [hcs, hnew, texts_append, texts_cons]
    exact congrArg _ (congrArg _ (texts_assemble_congr rfl))

theorem not_terminates (h : endsInText cs = false) (hw : isBlankText w = true) (hn : '\n' ∉ w)
    (hz : AtLineEnd z) (stop : Nat) : ¬ Terminates start stop cs (w ++ z) := by
  intro hterm
  obtain ⟨hlength, hflatten⟩ := hterm.length_eq
  have hpadding : IsPadding (';' :: w) := IsPadding.singleton.append (.of_blank hw)
  have hflat : '\n' ∉ ';' :: w := by simp [hn]
  have hnew : cs ++ ';' :: (w ++ z) = cs ++ (';' :: w) ++ z := by simp
  rw [hnew, ← List.append_assoc] at hlength hflatten
  -- In a comment the semicolon is lost; else it is one more fragment or comes after white space.
  rcases endsInComment_or_apart h with hcomment | ⟨before, text, hapart⟩
  · rw [hcomment.texts_eq _ z hpadding hflat hz, hcomment.texts_eq w z (.of_blank hw) hn hz]
      at hflatten
    omega
  · rw [hapart.texts_eq _ z hpadding hflat hz, hapart.texts_eq w z (.of_blank hw) hn hz,
      List.append_cons, finished_append_blank hw, finished_append_blank hw,
      finished_semicolon] at hlength hflatten
    have hne : trim text ≠ [] := by
      intro hnil
      simp [finished, hnil] at hlength
    have hlong := length_trim_add_two_le hne hapart.blank
    have hfinished : finished text = [trim text] := by simp [finished, hne]
    simp only [hfinished, List.flatten_append, List.flatten_singleton, List.length_append]
      at hflatten
    omega

/-- A semicolon after the last character of a line goes to the last fragment of the line if and only
if the text up to it ends in a statement's own text. -/
theorem terminates_iff (hlast : ∀ c ∈ cs.getLast?, isBlank c = false ∧ c ≠ ';' ∧ c ≠ '{' ∧ c ≠ '}')
    (hstart : start < byteLength cs) (hw : isBlankText w = true) (hn : '\n' ∉ w)
    (hz : AtLineEnd z) :
    Terminates start (byteLength (cs ++ w)) cs (w ++ z) ↔ endsInText cs = true := by
  refine ⟨fun h => ?_, fun h => .of_endsInText h hlast hstart hw hn hz⟩
  by_contra hnot
  exact not_terminates (Bool.not_eq_true _ ▸ hnot) hw hn hz _ h

end Semicolon

end Ends

end Flowchart
