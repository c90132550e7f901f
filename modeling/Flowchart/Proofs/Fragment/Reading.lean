import Flowchart.Proofs.Fragment.Runs
import Flowchart.Proofs.Literal.Parts
import Flowchart.Proofs.Padding
import Flowchart.Proofs.Pieces.Plain
import Flowchart.Proofs.Pieces.Tail

/-!
# How a source reads

What the pieces of a source are, said of the source alone and not by the scanner that cuts it.

* `Piece.IsFirst`: what a piece of each kind looks like, and where it ends in the text after it.
* `StatementStart`, `LineStart`, `AfterAlone`: what stands before a piece. A directive begins where
  a statement may begin, which is at the start of a line or right after a brace or `else`
  (`statementStart_iff`).
* `IsReading`: pieces that make up the source, each of them the first one of what is left.
  `isReading_iff`: the pieces that the scanner cuts are such a reading, and there is no other one.
* `isReading_lineStart_iff`: when it makes no difference that directives may begin after a brace or
  `else`.
-/

namespace Flowchart

open Text (isBlank isBlankText)

/-! ## The ends of lines and comments -/

theorem newline_not_mem_takeWhile (cs : List Char) : '\n' ∉ cs.takeWhile (· != '\n') := by
  intro hm
  simpa using List.mem_takeWhile_imp hm

theorem atLineEnd_dropWhile (cs : List Char) : AtLineEnd (cs.dropWhile (· != '\n')) := by
  intro c hc
  simpa using Text.of_mem_head?_dropWhile c hc

/-- What is taken up to the end of the line. -/
theorem takeWhile_line_append {t rest : List Char} (hflat : '\n' ∉ t) (hends : AtLineEnd rest) :
    ((t ++ rest).takeWhile (· != '\n'), (t ++ rest).dropWhile (· != '\n')) = (t, rest) := by
  have hall : ∀ c ∈ t, (c != '\n') = true := by
    intro c hc
    simpa using ne_of_mem_of_not_mem hc hflat
  have hnone : rest.takeWhile (· != '\n') = [] := by
    rcases hends.eq_nil_or with rfl | ⟨y, rfl⟩ <;> rfl
  rw [hends.dropWhile_append hflat, List.takeWhile_append_of_pos hall, hnone, List.append_nil]

theorem starSlash_infix_cons {c : Char} {cs : List Char} :
    "*/".toList <:+: c :: cs ↔ c = '*' ∧ cs.head? = some '/' ∨ "*/".toList <:+: cs := by
  rw [List.infix_cons_iff]
  refine or_congr ?_ Iff.rfl
  cases cs with
  | nil => simp
  | cons d ds => simp [eq_comm]

/-- A comment ends with the first `*/` after its opening. -/
theorem scanComment_closed {t : List Char} (h : ¬"*/".toList <:+: t ++ ['*']) (rest : List Char) :
    Piece.scanComment (t ++ "*/".toList ++ rest) = (t ++ "*/".toList, rest) := by
  induction t with
  | nil => rfl
  | cons c t ih =>
    rw [List.cons_append, starSlash_infix_cons, not_or] at h
    obtain ⟨hnow, hlater⟩ := h
    have hhead : (t ++ "*/".toList ++ rest).head? = (t ++ ['*']).head? := by
      cases t <;> rfl
    rw [← hhead] at hnow
    rw [List.cons_append, List.cons_append, Piece.scanComment_cons hnow, ih hlater]

theorem scanComment_open {t : List Char} (h : ¬"*/".toList <:+: t) :
    Piece.scanComment t = (t, []) := by
  induction t with
  | nil => rfl
  | cons c t ih =>
    rw [starSlash_infix_cons, not_or] at h
    rw [Piece.scanComment_cons h.1, ih h.2]

theorem scanComment_cases (cs : List Char) :
    (∃ t, (Piece.scanComment cs).1 = t ++ "*/".toList ∧ ¬"*/".toList <:+: t ++ ['*']) ∨
    (Piece.scanComment cs).2 = [] ∧ ¬"*/".toList <:+: (Piece.scanComment cs).1 := by
  fun_induction Piece.scanComment cs with
  | case1 => exact .inr ⟨rfl, by decide⟩
  | case2 c cs h =>
    obtain ⟨rfl, -⟩ := h
    exact .inl ⟨[], rfl, by decide⟩
  | case3 c cs hnot taken rest hscan ih =>
    have hcs : taken ++ rest = cs := by simpa [hscan] using Piece.scanComment_append cs
    rw [hscan] at ih
    rcases ih with ⟨t, rfl, ht⟩ | ⟨rfl, ht⟩
    · refine .inl ⟨c :: t, rfl, ?_⟩
      have hhead : (t ++ ['*']).head? = cs.head? := by
        rw [← hcs]
        cases t <;> rfl
      rw [List.cons_append, starSlash_infix_cons, hhead]
      exact not_or.mpr ⟨hnot, ht⟩
    · obtain rfl : taken = cs := by simpa using hcs
      refine .inr ⟨rfl, ?_⟩
      rw [starSlash_infix_cons]
      exact not_or.mpr ⟨hnot, ht⟩

/-! ## Literals of a source -/

/-- A literal in the quote `q`, with `rest` after it. It stays in its line; without a closing quote
it goes on to the end of the line, or to a backslash there. -/
structure IsLiteral (q : Char) (l rest : List Char) : Prop where
  flat : '\n' ∉ l
  reads : ∃ parts closed, Literal.Reads q l parts closed ∧
    (closed = false → AtLineEnd rest ∨ ∃ r, rest = '\\' :: r ∧ AtLineEnd r)

section Literals

variable {q : Char} {t cs rest : List Char}

theorem isLiteral_scan (hq : q ≠ '\n') (cs : List Char) :
    IsLiteral q (q :: (Literal.scan (· == '\n') q cs).1) (Literal.scan (· == '\n') q cs).2 := by
  have hflat := Piece.newline_not_mem_literal hq cs
  obtain ⟨parts, closed, hreads, hstops⟩ := Literal.exists_reads (· == '\n') q cs
  refine ⟨by simp [hq.symm, hflat], parts, closed, hreads, fun hclosed => ?_⟩
  simpa only [Literal.Stops, AtLineEnd, beq_iff_eq] using hstops hclosed

/-- Nothing is taken at the end of a line. -/
theorem scan_atLineEnd (hq : q ≠ '\n') (h : AtLineEnd rest) :
    Literal.scan (· == '\n') q rest = ([], rest) := by
  rcases h.eq_nil_or with rfl | ⟨y, rfl⟩
  · rfl
  · rw [Literal.scan.eq_def]
    simp [hq.symm]

/-- A backslash at the end of a line has nothing to take with it. -/
theorem scan_backslash (hb : q ≠ '\\') (h : AtLineEnd rest) :
    Literal.scan (· == '\n') q ('\\' :: rest) = ([], '\\' :: rest) := by
  rw [Literal.scan.eq_def]
  rcases h.eq_nil_or with rfl | ⟨y, rfl⟩ <;> simp [hb.symm]

theorem IsLiteral.scan_eq (h : IsLiteral q (q :: t) rest) (hq : q ≠ '\n') (hb : q ≠ '\\') :
    Literal.scan (· == '\n') q (t ++ rest) = (t, rest) := by
  obtain ⟨hflat, parts, closed, hreads, hends⟩ := h
  have hstop : ∀ c ∈ t, (c == '\n') = false := by
    intro c hc
    rw [beq_eq_false_iff_ne]
    exact ne_of_mem_of_not_mem (List.mem_cons_of_mem q hc) hflat
  cases closed with
  | true => exact Literal.closed_of_flat hb hreads hstop rest
  | false =>
    obtain rfl : t = Literal.inside parts := by simpa using hreads.text
    have hrest : Literal.scan (· == '\n') q rest = ([], rest) := by
      rcases hends rfl with hend | ⟨r, rfl, hend⟩
      · exact scan_atLineEnd hq hend
      · exact scan_backslash hb hend
    rw [Literal.open_inside hb hreads.plain hstop, hrest, List.append_nil]

end Literals

/-! ## First pieces -/

/-- The piece is the first one of the text that `rest` ends; `start` says that a statement may begin
there. -/
inductive Piece.IsFirst (start : Prop) : Piece → List Char → Prop where
  /-- The rest of a line that begins with `#`. -/
  | directive {t rest : List Char} (atStart : start) (flat : '\n' ∉ t) (ends : AtLineEnd rest) :
      IsFirst start ⟨.directive, '#' :: t⟩ rest
  | lineComment {t rest : List Char} (flat : '\n' ∉ t) (ends : AtLineEnd rest) :
      IsFirst start ⟨.comment, '/' :: '/' :: t⟩ rest
  /-- A comment up to the first `*/` after its opening. -/
  | blockComment {t rest : List Char} (first : ¬"*/".toList <:+: t ++ ['*']) :
      IsFirst start ⟨.comment, '/' :: '*' :: (t ++ "*/".toList)⟩ rest
  /-- A comment that nothing closes, up to the end of the source. -/
  | openComment {t : List Char} (unclosed : ¬"*/".toList <:+: t) :
      IsFirst start ⟨.comment, '/' :: '*' :: t⟩ []
  | newline {rest : List Char} : IsFirst start ⟨.newline, ['\n']⟩ rest
  | openBrace {rest : List Char} : IsFirst start ⟨.openBrace, ['{']⟩ rest
  | closeBrace {rest : List Char} : IsFirst start ⟨.closeBrace, ['}']⟩ rest
  | string {l rest : List Char} (literal : IsLiteral '"' l rest) : IsFirst start ⟨.string, l⟩ rest
  | character {l rest : List Char} (literal : IsLiteral '\'' l rest) :
      IsFirst start ⟨.character, l⟩ rest
  /-- The word `else`, as a whole. -/
  | otherwise {rest : List Char} (whole : ∀ c ∈ rest.head?, isWordChar c = false) :
      IsFirst start ⟨.otherwise, "else".toList⟩ rest
  /-- Any other word, as a whole. -/
  | word {w rest : List Char} (nonempty : w ≠ []) (chars : ∀ c ∈ w, isWordChar c = true)
      (other : w ≠ "else".toList) (whole : ∀ c ∈ rest.head?, isWordChar c = false) :
      IsFirst start ⟨.word, w⟩ rest
  /-- A character that begins none of these. -/
  | symbol {c : Char} {rest : List Char} (notWord : isWordChar c = false) (plain : c ∉ markers)
      (noComment : c = '/' → rest.head? ≠ some '/' ∧ rest.head? ≠ some '*')
      (noDirective : start → c ≠ '#') : IsFirst start ⟨.symbol, [c]⟩ rest

namespace Piece

variable {start : Prop} {atStart : Bool} {p : Piece} {rest : List Char}

/-- What begins with the opening of a comment is a comment. -/
theorem isFirst_comment {cs : List Char} (h : cs.head? = some '/' ∨ cs.head? = some '*') :
    IsFirst start ⟨.comment, '/' :: (extent .comment '/' cs).1⟩ (extent .comment '/' cs).2 := by
  rcases h with h | h
  · obtain ⟨ds, rfl⟩ := List.head?_eq_some_iff.mp h
    exact .lineComment (newline_not_mem_takeWhile ds) (atLineEnd_dropWhile ds)
  · obtain ⟨ds, rfl⟩ := List.head?_eq_some_iff.mp h
    show IsFirst start ⟨.comment, '/' :: '*' :: (scanComment ds).1⟩ (scanComment ds).2
    rcases scanComment_cases ds with ⟨t, ht, hfirst⟩ | ⟨hrest, hopen⟩
    · rw [ht]
      exact .blockComment hfirst
    · rw [hrest]
      exact .openComment hopen

/-- The piece that is cut off first is the first one. -/
theorem isFirst_first (atStart : Bool) (c : Char) (cs : List Char) :
    (first atStart c cs).1.IsFirst (atStart = true) (first atStart c cs).2 := by
  show IsFirst _ ⟨kindAt atStart c cs, c :: (extent (kindAt atStart c cs) c cs).1⟩
    (extent (kindAt atStart c cs) c cs).2
  fun_cases kindAt atStart c cs with
  | case1 h =>
    obtain ⟨hstart, rfl⟩ := h
    exact .directive hstart (newline_not_mem_takeWhile cs) (atLineEnd_dropWhile cs)
  | case2 _ h =>
    obtain ⟨rfl, h⟩ := h
    exact isFirst_comment h
  | case3 _ _ h => subst h; exact .newline
  | case4 _ _ _ h => subst h; exact .openBrace
  | case5 _ _ _ _ h => subst h; exact .closeBrace
  | case6 _ _ _ _ _ h => subst h; exact .string (isLiteral_scan (by decide) cs)
  | case7 _ _ _ _ _ _ h => subst h; exact .character (isLiteral_scan (by decide) cs)
  | case8 _ _ _ _ _ _ _ _ h =>
    show IsFirst _ ⟨.otherwise, c :: cs.takeWhile isWordChar⟩ (cs.dropWhile isWordChar)
    rw [h]
    exact .otherwise Text.of_mem_head?_dropWhile
  | case9 _ _ _ _ _ _ _ hw h =>
    refine .word (List.cons_ne_nil _ _) (fun d hd => ?_) h Text.of_mem_head?_dropWhile
    rcases List.mem_cons.mp hd with rfl | hd
    · exact hw
    · exact List.mem_takeWhile_imp hd
  | case10 hd hcomment hn ho hc hs hq hw =>
    refine .symbol (by simpa using hw) (by simp [markers, hn, ho, hc, hs, hq]) ?_ fun h hhash =>
      hd ⟨h, hhash⟩
    rintro rfl
    exact not_or.mp fun h => hcomment ⟨rfl, h⟩

/-- A piece that is cut off first stands in front of the pieces of the rest. -/
theorem pieces_cons {kind : PieceKind} {c : Char} {t : List Char}
    (hkind : kindAt atStart c (t ++ rest) = kind) (hext : extent kind c (t ++ rest) = (t, rest)) :
    pieces atStart (c :: t ++ rest) =
      ⟨kind, c :: t⟩ :: pieces (leavesAtStart atStart ⟨kind, c :: t⟩) rest := by
  have hfirst : first atStart c (t ++ rest) = (⟨kind, c :: t⟩, rest) := by
    rw [first, hkind]
    simp only [hext]
  rw [List.cons_append, pieces, hfirst]

/-- The first piece of a text is the one that is cut off first. -/
theorem IsFirst.pieces_eq (h : p.IsFirst (atStart = true) rest) :
    pieces atStart (p.text ++ rest) = p :: pieces (p.leavesAtStart atStart) rest := by
  cases h with
  | directive hstart hflat hends =>
    exact pieces_cons (by simp [kindAt, hstart]) (takeWhile_line_append hflat hends)
  | @lineComment t _ hflat hends =>
    have hext : extent .comment '/' ('/' :: t ++ rest) = ('/' :: t, rest) :=
      takeWhile_line_append (by simp [hflat]) hends
    exact pieces_cons (by simp [kindAt]) hext
  | @blockComment t _ hfirst =>
    have hext : extent .comment '/' ('*' :: (t ++ "*/".toList) ++ rest) =
        ('*' :: (t ++ "*/".toList), rest) := by
      simp only [extent, List.cons_append, List.head?_cons, ↓reduceIte, List.tail_cons,
        scanComment_closed hfirst]
    exact pieces_cons (by simp [kindAt]) hext
  | @openComment t hopen =>
    have hext : extent .comment '/' ('*' :: t ++ []) = ('*' :: t, []) := by
      simp only [extent, List.head?_cons, ↓reduceIte, List.tail_cons, List.append_nil,
        scanComment_open hopen]
    exact pieces_cons (by simp [kindAt]) hext
  | newline => exact pieces_newline atStart rest
  | openBrace => exact pieces_cons (t := []) (by simp [kindAt]) rfl
  | closeBrace => exact pieces_cons (t := []) (by simp [kindAt]) rfl
  | @string l _ hl =>
    obtain ⟨parts, closed, hreads, -⟩ := hl.reads
    obtain ⟨t, rfl⟩ : ∃ t, l = '"' :: t := ⟨_, hreads.text⟩
    exact pieces_cons (by simp [kindAt]) (hl.scan_eq (by decide) (by decide))
  | @character l _ hl =>
    obtain ⟨parts, closed, hreads, -⟩ := hl.reads
    obtain ⟨t, rfl⟩ : ∃ t, l = '\'' :: t := ⟨_, hreads.text⟩
    exact pieces_cons (by simp [kindAt]) (hl.scan_eq (by decide) (by decide))
  | otherwise hwhole =>
    obtain ⟨htake, hdrop⟩ := takeWhile_word (w := "lse".toList) (by simp; decide) hwhole
    refine pieces_cons (t := "lse".toList) ?_ ?_
    · rw [kindAt_word (by decide), htake]
      rfl
    · simp only [extent, htake, hdrop]
  | @word w _ hne hchars hother hwhole =>
    have hblank : isBlankText w = false := by
      obtain ⟨c, w, rfl⟩ := List.exists_cons_of_ne_nil hne
      have hc := isBlank_of_isWordChar (hchars c List.mem_cons_self)
      simp [isBlankText, hc]
    show pieces atStart (w ++ rest) = _
    rw [pieces_word hne hchars hother hwhole]
    simp [leavesAtStart, hblank]
  | symbol hw hm hcomment hstart =>
    show pieces atStart (_ :: rest) = _
    rw [pieces_symbol hw hm hcomment hstart]
    simp [leavesAtStart, isBlankText]

/-- A `#` where a statement may begin is a directive. -/
theorem IsFirst.kind_of_hash (h : p.IsFirst start rest) (hs : start)
    (hhash : p.text.head? = some '#') : p.kind = .directive := by
  cases h with
  | directive => rfl
  | string hl | character hl =>
    obtain ⟨parts, closed, hreads, -⟩ := hl.reads
    rw [hreads.text] at hhash
    exact absurd (Option.some.inj hhash) (by decide)
  | word hne hchars =>
    have hc := hchars '#' (List.mem_of_mem_head? hhash)
    exact absurd hc (by decide)
  | symbol _ _ _ hstart => exact absurd (Option.some.inj hhash) (hstart hs)
  | lineComment | blockComment | openComment | newline | openBrace | closeBrace | otherwise =>
    exact absurd (Option.some.inj hhash) (by decide)

/-- Whether a statement may begin there makes a difference to a `#` only. -/
theorem IsFirst.congr {start' : Prop} (h : p.IsFirst start rest)
    (hstart : p.text.head? = some '#' → (start ↔ start')) : p.IsFirst start' rest := by
  cases h with
  | directive hs hflat hends => exact .directive ((hstart rfl).mp hs) hflat hends
  | lineComment hflat hends => exact .lineComment hflat hends
  | blockComment hfirst => exact .blockComment hfirst
  | openComment hopen => exact .openComment hopen
  | newline => exact .newline
  | openBrace => exact .openBrace
  | closeBrace => exact .closeBrace
  | string hl => exact .string hl
  | character hl => exact .character hl
  | otherwise hwhole => exact .otherwise hwhole
  | word hne hchars hother hwhole => exact .word hne hchars hother hwhole
  | symbol hw hm hcomment hs =>
    refine .symbol hw hm hcomment fun hs' hhash => ?_
    exact hs ((hstart (by rw [hhash]; rfl)).mpr hs') hhash

theorem IsFirst.of_directive (h : p.IsFirst start rest) (hk : p.kind = .directive) :
    start ∧ p.text.head? = some '#' := by
  cases h with
  | directive hs => exact ⟨hs, rfl⟩
  | _ => cases hk

end Piece

/-! ## Where a statement may begin -/

/-- Only white space, comments and directives come after the last piece that `marks` holds of, or
after the beginning if there is no such piece. -/
def OnlyIgnoredSince (marks : Piece → Prop) (before : List Piece) : Prop :=
  ∃ front gap, before = front ++ gap ∧ (∀ p ∈ gap, p.isIgnored = true) ∧
    ∀ p ∈ front.getLast?, marks p

/-- What comes next is the first of its line. -/
def LineStart (before : List Piece) : Prop := OnlyIgnoredSince (·.kind = .newline) before

/-- What comes next may begin a statement: it is the first of its line or comes first after a brace
or `else`. -/
def StatementStart (before : List Piece) : Prop :=
  OnlyIgnoredSince (fun p => p.kind = .newline ∨ p.standsAlone = true) before

/-- What comes next is the first thing after a brace or `else` in the same line. -/
def AfterAlone (before : List Piece) : Prop :=
  ∃ front p gap, before = front ++ p :: gap ∧ p.standsAlone = true ∧
    ∀ q ∈ gap, q.isIgnored = true ∧ q.kind ≠ .newline

section Start

variable {marks : Piece → Prop} {before : List Piece} {p : Piece}

theorem OnlyIgnoredSince.mono {marks' : Piece → Prop} (h : OnlyIgnoredSince marks before)
    (himp : ∀ p, marks p → marks' p) : OnlyIgnoredSince marks' before := by
  obtain ⟨front, gap, heq, hgap, hmarks⟩ := h
  exact ⟨front, gap, heq, hgap, fun p hp => himp p (hmarks p hp)⟩

theorem onlyIgnoredSince_nil : OnlyIgnoredSince marks [] := ⟨[], [], rfl, by simp, by simp⟩

theorem onlyIgnoredSince_concat : OnlyIgnoredSince marks (before ++ [p]) ↔
    marks p ∨ p.isIgnored = true ∧ OnlyIgnoredSince marks before := by
  constructor
  · rintro ⟨front, gap, heq, hgap, hmarks⟩
    rcases List.eq_nil_or_concat' gap with rfl | ⟨gap, q, rfl⟩
    · rw [List.append_nil] at heq
      subst heq
      exact .inl (hmarks p (by simp))
    · rw [← List.append_assoc] at heq
      obtain ⟨rfl, hlast⟩ := List.append_inj' heq rfl
      obtain rfl := List.singleton_inj.mp hlast
      obtain ⟨hgap, hp⟩ := List.forall_mem_append.mp hgap
      exact .inr ⟨hp p (by simp), front, gap, rfl, hgap, hmarks⟩
  · rintro (hp | ⟨hp, front, gap, rfl, hgap, hmarks⟩)
    · exact ⟨before ++ [p], [], by simp, by simp, by simpa using hp⟩
    · refine ⟨front, gap ++ [p], by simp, ?_, hmarks⟩
      exact List.forall_mem_append.mpr ⟨hgap, by simpa using hp⟩

theorem lineStart_concat : LineStart (before ++ [p]) ↔
    p.kind = .newline ∨ p.isIgnored = true ∧ LineStart before :=
  onlyIgnoredSince_concat

theorem statementStart_concat : StatementStart (before ++ [p]) ↔
    (p.kind = .newline ∨ p.standsAlone = true) ∨ p.isIgnored = true ∧ StatementStart before :=
  onlyIgnoredSince_concat

theorem not_afterAlone_nil : ¬AfterAlone [] := by
  rintro ⟨front, p, gap, heq, -⟩
  simp at heq

theorem afterAlone_concat : AfterAlone (before ++ [p]) ↔
    p.standsAlone = true ∨ (p.isIgnored = true ∧ p.kind ≠ .newline) ∧ AfterAlone before := by
  constructor
  · rintro ⟨front, q, gap, heq, hq, hgap⟩
    rcases List.eq_nil_or_concat' gap with rfl | ⟨gap, r, rfl⟩
    · obtain rfl := List.singleton_inj.mp (List.append_inj' heq rfl).2
      exact .inl hq
    · rw [← List.cons_append, ← List.append_assoc] at heq
      obtain ⟨rfl, hlast⟩ := List.append_inj' heq rfl
      obtain rfl := List.singleton_inj.mp hlast
      obtain ⟨hgap, hp⟩ := List.forall_mem_append.mp hgap
      exact .inr ⟨hp p (by simp), front, q, gap, rfl, hq, hgap⟩
  · rintro (hp | ⟨hp, front, q, gap, rfl, hq, hgap⟩)
    · exact ⟨before, p, [], rfl, hp, by simp⟩
    · refine ⟨front, q, gap ++ [p], by simp, hq, ?_⟩
      exact List.forall_mem_append.mpr ⟨hgap, by simpa using hp⟩

theorem leavesAtStart_iff {atStart : Bool} : p.leavesAtStart atStart = true ↔
    (p.kind = .newline ∨ p.standsAlone = true) ∨ p.isIgnored = true ∧ atStart = true := by
  rcases p.newline_or_standsAlone_or_directive_or_isInner with hk | hk | hk | hk
  · simp [Piece.leavesAtStart_newline hk, hk]
  · simp [Piece.leavesAtStart_standsAlone hk, hk]
  · simp [Piece.leavesAtStart_directive hk, hk, Piece.standsAlone, Piece.isIgnored]
  · rw [Piece.leavesAtStart_inner hk]
    cases hkind : p.kind <;> simp_all [Piece.isInner, Piece.standsAlone, and_comm]

theorem statementStart_iff_leftAtStart (before : List Piece) :
    StatementStart before ↔ leftAtStart true before = true := by
  induction before using List.reverseRecOn with
  | nil => exact iff_of_true onlyIgnoredSince_nil rfl
  | append_singleton before p ih =>
    have hleft : leftAtStart true (before ++ [p]) = p.leavesAtStart (leftAtStart true before) := by
      simp only [leftAtStart, List.foldl_append, List.foldl_cons, List.foldl_nil]
    rw [statementStart_concat, hleft, leavesAtStart_iff, ih]

/-- A statement may begin at the start of a line and after a brace or `else`, and one of the two
only. -/
theorem statementStart_iff (hs : ∀ p ∈ before, p.Shaped) :
    (StatementStart before ↔ LineStart before ∨ AfterAlone before) ∧
      ¬(LineStart before ∧ AfterAlone before) := by
  induction before using List.reverseRecOn with
  | nil => exact ⟨iff_of_true onlyIgnoredSince_nil (.inl onlyIgnoredSince_nil),
      fun h => not_afterAlone_nil h.2⟩
  | append_singleton before p ih =>
    obtain ⟨hbefore, hp⟩ := List.forall_mem_append.mp hs
    have hp := hp p List.mem_cons_self
    have hnewline : p.kind = .newline → p.isIgnored = true := Piece.isIgnored_newline hp
    have halone : p.standsAlone = true → p.isIgnored = false := Piece.isIgnored_of_standsAlone hp
    obtain ⟨heither, hnotBoth⟩ := ih hbefore
    rw [statementStart_concat, lineStart_concat, afterAlone_concat, heither]
    by_cases hi : p.isIgnored = true
    · -- The piece is a line break, or what stands before it decides.
      have hnot : p.standsAlone = false := by
        by_contra ha
        rw [halone (by simpa using ha)] at hi
        cases hi
      by_cases hn : p.kind = .newline <;> simp_all
    · have hn : p.kind ≠ .newline := fun hn => hi (hnewline hn)
      simp [hi, hn]

end Start

/-! ## Readings -/

/-- The pieces make up the source, and each of them is the first one of what is left. Directives
begin where `start` holds of the pieces before them. -/
structure IsReading (start : List Piece → Prop) (source : List Char) (ps : List Piece) : Prop where
  text : ps.flatMap Piece.text = source
  first : ∀ before p after, ps = before ++ p :: after →
    p.IsFirst (start before) (after.flatMap Piece.text)

/-- Each of the pieces is the first one of what is left, where a statement may begin before the
first of them if `atStart`. -/
def ReadsFrom (atStart : Bool) (ps : List Piece) : Prop :=
  ∀ before p after, ps = before ++ p :: after →
    p.IsFirst (leftAtStart atStart before = true) (after.flatMap Piece.text)

theorem readsFrom_cons {atStart : Bool} {p : Piece} {ps : List Piece} :
    ReadsFrom atStart (p :: ps) ↔
      p.IsFirst (atStart = true) (ps.flatMap Piece.text) ∧
        ReadsFrom (p.leavesAtStart atStart) ps := by
  constructor
  · refine fun h => ⟨h [] p ps rfl, fun before q after heq => ?_⟩
    exact h (p :: before) q after (by rw [heq, List.cons_append])
  · rintro ⟨hp, hps⟩ before q after heq
    cases before with
    | nil =>
      obtain ⟨rfl, rfl⟩ := List.cons.inj heq
      exact hp
    | cons p' before =>
      obtain ⟨rfl, htail⟩ := List.cons.inj heq
      exact hps before q after htail

theorem readsFrom_pieces (atStart : Bool) (cs : List Char) :
    ReadsFrom atStart (pieces atStart cs) := by
  fun_induction pieces atStart cs with
  | case1 => intro before p after heq; simp at heq
  | case2 atStart c cs p ih =>
    refine readsFrom_cons.mpr ⟨?_, ih⟩
    rw [flatMap_text_pieces]
    exact Piece.isFirst_first atStart c cs

theorem ReadsFrom.pieces_eq {atStart : Bool} {ps : List Piece} (h : ReadsFrom atStart ps) :
    pieces atStart (ps.flatMap Piece.text) = ps := by
  induction ps generalizing atStart with
  | nil => rw [List.flatMap_nil, pieces]
  | cons p ps ih =>
    obtain ⟨hp, hps⟩ := readsFrom_cons.mp h
    rw [List.flatMap_cons, hp.pieces_eq, ih hps]

/-- A source has one reading with directives wherever a statement may begin: the pieces that it is
cut into. -/
theorem isReading_iff {source : List Char} {ps : List Piece} :
    IsReading StatementStart source ps ↔ ps = pieces true source := by
  have hfrom (qs : List Piece) : ReadsFrom true qs ↔ ∀ before p after, qs = before ++ p :: after →
      p.IsFirst (StatementStart before) (after.flatMap Piece.text) := by
    simp only [ReadsFrom, ← statementStart_iff_leftAtStart]
  constructor
  · rintro ⟨rfl, hfirst⟩
    exact ((hfrom ps).mpr hfirst).pieces_eq.symm
  · rintro rfl
    exact ⟨flatMap_text_pieces true source, (hfrom _).mp (readsFrom_pieces true source)⟩

/-- A `#` comes first after a brace or `else` in the same line. -/
def HashAfterAlone (ps : List Piece) : Prop :=
  ∃ before p after, ps = before ++ p :: after ∧ AfterAlone before ∧ p.text.head? = some '#'

/-- A directive that is not the first of its line is a `#` after a brace or `else`. -/
theorem hashAfterAlone_iff {source : List Char} {ps : List Piece}
    (h : IsReading StatementStart source ps) : HashAfterAlone ps ↔
      ∃ before p after, ps = before ++ p :: after ∧ p.kind = .directive ∧ ¬LineStart before := by
  obtain rfl := isReading_iff.mp h
  have hshaped := (scanned_pieces true source).shaped_of_mem
  have hstart {before after : List Piece} {p : Piece}
      (heq : pieces true source = before ++ p :: after) :=
    statementStart_iff fun q hq => hshaped q (heq ▸ List.mem_append_left (p :: after) hq)
  constructor
  · rintro ⟨before, p, after, heq, hafter, hhash⟩
    have hbegins := (hstart heq).1.mpr (.inr hafter)
    refine ⟨before, p, after, heq, (h.first before p after heq).kind_of_hash hbegins hhash, ?_⟩
    exact fun hline => (hstart heq).2 ⟨hline, hafter⟩
  · rintro ⟨before, p, after, heq, hk, hline⟩
    obtain ⟨hbegins, hhash⟩ := (h.first before p after heq).of_directive hk
    exact ⟨before, p, after, heq, ((hstart heq).1.mp hbegins).resolve_left hline, hhash⟩

/-- The source reads the same with directives at the start of a line only, unless a `#` comes first
after a brace or `else`. -/
theorem isReading_lineStart_iff {source : List Char} {ps : List Piece}
    (h : IsReading StatementStart source ps) :
    IsReading LineStart source ps ↔ ¬HashAfterAlone ps := by
  rw [hashAfterAlone_iff h]
  constructor
  · rintro hline ⟨before, p, after, heq, hk, hnot⟩
    exact hnot ((hline.first before p after heq).of_directive hk).1
  · refine fun hnone => ⟨h.text, fun before p after heq => ?_⟩
    have hfirst := h.first before p after heq
    refine hfirst.congr fun hhash => ⟨fun hbegins => ?_, fun hline => ?_⟩
    · by_contra hnot
      exact hnone ⟨before, p, after, heq, hfirst.kind_of_hash hbegins hhash, hnot⟩
    · exact hline.mono fun q hq => .inl hq

end Flowchart
