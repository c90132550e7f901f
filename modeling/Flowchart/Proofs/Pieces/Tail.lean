import Flowchart.Proofs.Literal
import Flowchart.Proofs.Pieces.Local

/-!
# How the pieces of a text end

* `pieces_append_break`: a line break cuts the pieces in two, unless a block comment is open before
  it.
* `Unended`: the end of a text that what follows may continue: nothing, a literal, a line comment or
  directive, or a block comment.
* `exists_unended`: all pieces of a text but such an end stay as they are when a separator follows.
  `pieces_line`, `pieces_block`, `exists_pieces_literal`: the piece at the end goes on, and then
  come the pieces after it.
-/

namespace Flowchart

namespace Piece

/-! ## Block comments -/

/-- The comment goes on after `t`, unless a slash follows. -/
def OpenComment (t : List Char) : Prop :=
  ∀ x, x.head? ≠ some '/' → (scanComment (t ++ x)).2 = (scanComment x).2

theorem scanComment_cons {c : Char} {cs : List Char} (h : ¬(c = '*' ∧ cs.head? = some '/')) :
    scanComment (c :: cs) = (c :: (scanComment cs).1, (scanComment cs).2) := by
  rw [scanComment, if_neg h]

/-- A comment is closed in the text, whatever follows, or it goes on. -/
theorem scanComment_append_or_open (t : List Char) :
    (Text.contains "*/".toList (scanComment t).1 = true ∧
      ∀ x, scanComment (t ++ x) = ((scanComment t).1, (scanComment t).2 ++ x)) ∨
    (Text.contains "*/".toList (scanComment t).1 = false ∧ OpenComment t) := by
  fun_induction scanComment t with
  | case1 => exact .inr ⟨rfl, fun x _ => rfl⟩
  | case2 c cs h =>
    obtain ⟨rfl, h⟩ := h
    obtain ⟨ds, rfl⟩ := List.head?_eq_some_iff.mp h
    refine .inl ⟨rfl, fun x => ?_⟩
    rw [List.cons_append, List.cons_append, scanComment, if_pos ⟨rfl, rfl⟩]
    rfl
  | case3 c cs hnot taken rest hscan ih =>
    have hstart : Text.startsWith "*/".toList (c :: taken) = false := by
      by_contra hstart
      rw [Bool.not_eq_false] at hstart
      obtain ⟨t, ht⟩ := List.isPrefixOf_iff_prefix.mp hstart
      have hcs : taken ++ rest = cs := by simpa [hscan] using scanComment_append cs
      obtain ⟨rfl, rfl⟩ : '*' = c ∧ '/' :: t = taken := by simpa using ht
      exact hnot ⟨rfl, by simp [← hcs]⟩
    rw [Text.contains, hstart, Bool.false_or]
    cases cs with
    | nil =>
      obtain ⟨rfl, -⟩ := Prod.mk.inj hscan
      refine .inr ⟨rfl, fun x hx => ?_⟩
      rw [List.singleton_append, scanComment_cons fun h => hx h.2]
    | cons d ds =>
      have hcons (x : List Char) : scanComment (c :: d :: ds ++ x) =
          (c :: (scanComment (d :: ds ++ x)).1, (scanComment (d :: ds ++ x)).2) :=
        scanComment_cons hnot
      rw [hscan] at ih
      refine ih.imp (fun ⟨hclosed, happend⟩ => ⟨hclosed, fun x => ?_⟩)
        fun ⟨hunclosed, hopen⟩ => ⟨hunclosed, fun x hx => ?_⟩
      · rw [hcons, happend]
      · rw [hcons]
        exact hopen x hx

/-- A text without a star ends no comment. -/
theorem scanComment_of_not_mem {x : List Char} (hx : '*' ∉ x) (after : List Char) :
    (scanComment (x ++ after)).2 = (scanComment after).2 := by
  induction x with
  | nil => rfl
  | cons c x ih =>
    obtain ⟨hc, hx⟩ := not_or.mp (List.mem_cons.not.mp hx)
    rw [List.cons_append, scanComment_cons fun h => hc h.1.symm]
    exact ih hx

/-! ## Line breaks -/

/-- The piece is a block comment that nothing closes. -/
def isOpenComment (p : Piece) : Bool :=
  p.kind == .comment && Text.startsWith "/*".toList p.text &&
    !Text.contains "*/".toList (p.text.drop 2)

section Break

variable {atStart : Bool} {c : Char} {cs : List Char}

/-- Every piece but an open comment ends at a line break. -/
theorem first_append_newline (h : (first atStart c cs).1.isOpenComment = false) (ds : List Char) :
    first atStart c (cs ++ '\n' :: ds) =
      ((first atStart c cs).1, (first atStart c cs).2 ++ '\n' :: ds) := by
  by_cases hk : kindAt atStart c cs = .comment
  · obtain ⟨rfl, hhead⟩ := of_kindAt_comment hk
    have hkind : kindAt atStart '/' (cs ++ '\n' :: ds) = .comment :=
      (kindAt_append isSeparator_newline).trans hk
    have hstop : ('\n' != '\n') = false := rfl
    rcases hhead with hhead | hhead
    · obtain ⟨t, rfl⟩ := List.head?_eq_some_iff.mp hhead
      rw [first, first, hkind, hk]
      simp [extent, takeWhile_append_stop (p := (· != '\n')) hstop,
        dropWhile_append_stop (p := (· != '\n')) hstop]
    · obtain ⟨t, rfl⟩ := List.head?_eq_some_iff.mp hhead
      have hclosed : Text.contains "*/".toList (scanComment t).1 = true := by
        rw [first, hk] at h
        simpa [isOpenComment, extent, Text.startsWith] using h
      rcases scanComment_append_or_open t with ⟨-, happend⟩ | ⟨hunclosed, -⟩
      · rw [first, first, hkind, hk]
        simp [extent, happend]
      · rw [hunclosed] at hclosed
        cases hclosed
  · exact first_append_separator isSeparator_newline (endsAt_newline hk)

/-- An open comment takes all of the text. -/
theorem rest_of_isOpenComment (h : (first atStart c cs).1.isOpenComment = true) :
    (first atStart c cs).2 = [] := by
  have hk : kindAt atStart c cs = .comment := by
    simp only [isOpenComment, Bool.and_eq_true, beq_iff_eq] at h
    exact h.1.1
  obtain ⟨rfl, hhead⟩ := of_kindAt_comment hk
  rw [first, hk] at h ⊢
  rcases hhead with hhead | hhead
  · obtain ⟨t, rfl⟩ := List.head?_eq_some_iff.mp hhead
    simp [isOpenComment, Text.startsWith, extent] at h
  · obtain ⟨t, rfl⟩ := List.head?_eq_some_iff.mp hhead
    have hunclosed : Text.contains "*/".toList (scanComment t).1 = false := by
      simpa [isOpenComment, Text.startsWith, extent] using h
    rcases scanComment_append_or_open t with ⟨hclosed, -⟩ | ⟨-, hopen⟩
    · rw [hunclosed] at hclosed
      cases hclosed
    · have hrest := hopen [] (by simp)
      rwa [List.append_nil] at hrest

end Break

end Piece

/-- A line break cuts the pieces in two, unless a block comment is open before it. -/
theorem pieces_append_break {atStart : Bool} {cs : List Char}
    (h : (pieces atStart cs).getLast?.any Piece.isOpenComment = false) (ds : List Char) :
    pieces atStart (cs ++ '\n' :: ds) =
      pieces atStart cs ++ ⟨.newline, ['\n']⟩ :: pieces true ds := by
  fun_induction pieces atStart cs with
  | case1 atStart => exact pieces_newline atStart ds
  | case2 atStart c cs p ih =>
    have hp : p.isOpenComment = false := by
      by_contra hopen
      rw [Bool.not_eq_false] at hopen
      rw [Piece.rest_of_isOpenComment hopen, pieces] at h
      simp [hopen] at h
    have hrest : (pieces (p.leavesAtStart atStart) (Piece.first atStart c cs).2).getLast?.any
        Piece.isOpenComment = false := by
      cases hps : pieces (p.leavesAtStart atStart) (Piece.first atStart c cs).2 with
      | nil => rfl
      | cons q qs => rwa [hps, List.getLast?_cons_cons] at h
    rw [List.cons_append, pieces, Piece.first_append_newline hp]
    exact congrArg _ (ih hrest)

/-! ## Ends of texts -/

/-- The end of a text that what follows may continue. -/
inductive Unended (atStart : Bool) : List Char → Prop where
  | nothing : Unended atStart []
  | literal {quote : Char} {t : List Char} (isQuote : quote = '"' ∨ quote = '\'')
      (waits : Literal.Waits (· == '\n') quote t) : Unended atStart (quote :: t)
  /-- A directive, or a comment up to the end of the line. -/
  | line {kind : PieceKind} {c : Char} {t : List Char}
      (isLine : kind = .directive ∨ kind = .comment) (flat : '\n' ∉ t)
      (first_eq : ∀ x, Piece.first atStart c (t ++ x) =
        (⟨kind, c :: (t ++ x.takeWhile (· != '\n'))⟩, x.dropWhile (· != '\n'))) :
      Unended atStart (c :: t)
  | block {t : List Char} (isOpen : Piece.OpenComment t) : Unended atStart ('/' :: '*' :: t)

/-- A separator follows, or nothing. -/
def SeparatorFollows (x : List Char) : Prop := ∀ s ∈ x.head?, IsSeparator s

section First

variable {atStart : Bool} {c : Char} {cs x : List Char}

/-- The rest of a line either ends in the text or reaches to the end of the text. -/
theorem takeWhile_line (cs : List Char) :
    (∀ x, (cs ++ x).takeWhile (· != '\n') = cs.takeWhile (· != '\n') ∧
      (cs ++ x).dropWhile (· != '\n') = cs.dropWhile (· != '\n') ++ x) ∨
    '\n' ∉ cs ∧ ∀ x, (cs ++ x).takeWhile (· != '\n') = cs ++ x.takeWhile (· != '\n') ∧
      (cs ++ x).dropWhile (· != '\n') = x.dropWhile (· != '\n') := by
  have hnewline : ('\n' != '\n') = false := rfl
  by_cases h : '\n' ∈ cs
  · obtain ⟨a, b, rfl⟩ := List.append_of_mem h
    refine .inl fun x => ?_
    rw [List.append_assoc, List.cons_append, takeWhile_append_stop (p := (· != '\n')) hnewline,
      takeWhile_append_stop (p := (· != '\n')) hnewline,
      dropWhile_append_stop (p := (· != '\n')) hnewline,
      dropWhile_append_stop (p := (· != '\n')) hnewline, List.append_assoc, List.cons_append]
    exact ⟨rfl, rfl⟩
  · refine .inr ⟨h, fun x => ?_⟩
    have hall : ∀ d ∈ cs, (d != '\n') = true := fun d hd => by
      simpa using ne_of_mem_of_not_mem hd h
    exact ⟨List.takeWhile_append_of_pos hall, List.dropWhile_append_of_pos hall⟩

/-- A piece up to the end of the line. -/
theorem Unended.of_line {kind : PieceKind} (hkind : kind = .directive ∨ kind = .comment)
    (hk : ∀ x, Piece.kindAt atStart c (cs ++ x) = kind)
    (hext : ∀ x, Piece.extent kind c (cs ++ x) =
      ((cs ++ x).takeWhile (· != '\n'), (cs ++ x).dropWhile (· != '\n'))) :
    (∀ x, Piece.first atStart c (cs ++ x) =
      ((Piece.first atStart c cs).1, (Piece.first atStart c cs).2 ++ x)) ∨
    Unended atStart (c :: cs) := by
  have hfirst (x : List Char) : Piece.first atStart c (cs ++ x) =
      (⟨kind, c :: (cs ++ x).takeWhile (· != '\n')⟩, (cs ++ x).dropWhile (· != '\n')) := by
    simp only [Piece.first, hk, hext]
  have hnil := hfirst []
  rw [List.append_nil] at hnil
  rcases takeWhile_line cs with h | ⟨hflat, h⟩
  · refine .inl fun x => ?_
    rw [hfirst, hnil, (h x).1, (h x).2]
  · refine .inr (.line hkind hflat fun x => ?_)
    rw [hfirst, (h x).1, (h x).2]

theorem Unended.of_comment (hk : Piece.kindAt atStart c cs = .comment) :
    (∀ x, Piece.first atStart c (cs ++ x) =
      ((Piece.first atStart c cs).1, (Piece.first atStart c cs).2 ++ x)) ∨
    Unended atStart (c :: cs) := by
  obtain ⟨rfl, hhead⟩ := Piece.of_kindAt_comment hk
  obtain ⟨d, ds, rfl⟩ : ∃ d ds, cs = d :: ds := by
    cases cs with
    | nil => simp at hhead
    | cons d ds => exact ⟨d, ds, rfl⟩
  have hkind (x : List Char) : Piece.kindAt atStart '/' (d :: ds ++ x) = .comment := hk
  rcases hhead with h | h
  · obtain rfl : d = '/' := Option.some.inj h
    exact Unended.of_line (.inr rfl) hkind fun _ => rfl
  · obtain rfl : d = '*' := Option.some.inj h
    have hfirst (x : List Char) : Piece.first atStart '/' ('*' :: ds ++ x) =
        (⟨.comment, '/' :: '*' :: (Piece.scanComment (ds ++ x)).1⟩,
          (Piece.scanComment (ds ++ x)).2) := by
      simp only [Piece.first, hkind]
      rfl
    have hnil := hfirst []
    rw [List.append_nil, List.append_nil] at hnil
    refine (Piece.scanComment_append_or_open ds).imp (fun h x => ?_) fun h => .block h.2
    rw [hfirst, hnil, h.2]

theorem Unended.of_literal
    (hk : Piece.kindAt atStart c cs = .string ∨ Piece.kindAt atStart c cs = .character) :
    (∀ x, Piece.first atStart c (cs ++ x) =
      ((Piece.first atStart c cs).1, (Piece.first atStart c cs).2 ++ x)) ∨
    Unended atStart (c :: cs) := by
  have hquote := Piece.of_kindAt_literal hk
  refine (Literal.scan_append_or_waits (· == '\n') c cs).imp (fun h x => ?_) (.literal hquote)
  rcases hquote with rfl | rfl <;> simp [Piece.first, Piece.kindAt, Piece.extent, h]

/-- The first piece of a text stays as it is when a separator follows, or it is all of the text and
goes on. -/
theorem first_append_or_unended (atStart : Bool) (c : Char) (cs : List Char) :
    (∀ x, SeparatorFollows x → Piece.first atStart c (cs ++ x) =
      ((Piece.first atStart c cs).1, (Piece.first atStart c cs).2 ++ x)) ∨
    Unended atStart (c :: cs) := by
  have hplain (h : ∀ s, (Piece.first atStart c cs).1.endsAt s = true) (x : List Char)
      (hx : SeparatorFollows x) : Piece.first atStart c (cs ++ x) =
        ((Piece.first atStart c cs).1, (Piece.first atStart c cs).2 ++ x) := by
    cases x with
    | nil => simp
    | cons s ds => exact Piece.first_append_separator (hx s rfl) (h s)
  cases hk : Piece.kindAt atStart c cs with
  | word | symbol | newline | openBrace | closeBrace | otherwise =>
    refine .inl (hplain fun s => ?_)
    simp [Piece.first, hk, Piece.endsAt]
  | comment => exact (Unended.of_comment hk).imp_left fun h x _ => h x
  | string => exact (Unended.of_literal (.inl hk)).imp_left fun h x _ => h x
  | character => exact (Unended.of_literal (.inr hk)).imp_left fun h x _ => h x
  | directive =>
    have hstart := Piece.of_kindAt_directive hk
    have hkind (x : List Char) : Piece.kindAt atStart c (cs ++ x) = .directive := by
      rw [Piece.kindAt, if_pos hstart]
    exact (Unended.of_line (.inl rfl) hkind fun _ => rfl).imp_left fun h x _ => h x

end First

/-- All pieces of a text but an end that is not closed yet stay as they are when a separator
follows. -/
theorem exists_unended (atStart : Bool) (cs : List Char) :
    ∃ init b tail, Unended b tail ∧ ∀ x, SeparatorFollows x →
      pieces atStart (cs ++ x) = init ++ pieces b (tail ++ x) := by
  fun_induction pieces atStart cs with
  | case1 atStart => exact ⟨[], atStart, [], .nothing, fun _ _ => rfl⟩
  | case2 atStart c cs p ih =>
    rcases first_append_or_unended atStart c cs with hfirst | hopen
    · obtain ⟨init, b, tail, htail, hpieces⟩ := ih
      refine ⟨p :: init, b, tail, htail, fun x hx => ?_⟩
      rw [List.cons_append, pieces, hfirst x hx]
      exact congrArg _ (hpieces x hx)
    · exact ⟨[], atStart, c :: cs, hopen, fun _ _ => rfl⟩

/-! ## What follows such an end -/

section Follows

variable {atStart : Bool} {t x : List Char}

/-- A line comment or directive goes on to the end of the line. -/
theorem pieces_line {kind : PieceKind} {c : Char} (hkind : kind = .directive ∨ kind = .comment)
    (hfirst : ∀ x, Piece.first atStart c (t ++ x) =
      (⟨kind, c :: (t ++ x.takeWhile (· != '\n'))⟩, x.dropWhile (· != '\n'))) (x : List Char) :
    pieces atStart (c :: t ++ x) =
      ⟨kind, c :: (t ++ x.takeWhile (· != '\n'))⟩ ::
        pieces atStart (x.dropWhile (· != '\n')) := by
  rw [List.cons_append, pieces, hfirst]
  rcases hkind with rfl | rfl <;> rfl

/-- A block comment goes on to its end. -/
theorem pieces_block (ht : Piece.OpenComment t) (hx : x.head? ≠ some '/') :
    pieces atStart ('/' :: '*' :: t ++ x) =
      ⟨.comment, '/' :: '*' :: (Piece.scanComment (t ++ x)).1⟩ ::
        pieces atStart (Piece.scanComment x).2 := by
  have hfirst : Piece.first atStart '/' ('*' :: t ++ x) =
      (⟨.comment, '/' :: '*' :: (Piece.scanComment (t ++ x)).1⟩, (Piece.scanComment x).2) := by
    rw [← ht x hx]
    simp [Piece.first, Piece.kindAt, Piece.extent]
  rw [List.cons_append, pieces, hfirst]
  rfl

/-- A statement goes on after a literal. -/
theorem exists_pieces_literal {quote : Char} (hq : quote = '"' ∨ quote = '\'') (atStart : Bool) :
    ∃ kind, ∀ cs, pieces atStart (quote :: cs) =
      ⟨kind, quote :: (Literal.scan (· == '\n') quote cs).1⟩ ::
        pieces false (Literal.scan (· == '\n') quote cs).2 := by
  have hstart {kind : PieceKind} (hk : kind = .string ∨ kind = .character) (taken : List Char) :
      Piece.leavesAtStart atStart ⟨kind, quote :: taken⟩ = false := by
    have hblank : Text.isBlankText (quote :: taken) = false := by
      rcases hq with rfl | rfl <;> rfl
    rcases hk with rfl | rfl <;> simp [Piece.leavesAtStart, hblank]
  have hfirst {kind : PieceKind} (hk : kind = .string ∨ kind = .character) (cs : List Char)
      (hkind : Piece.kindAt atStart quote cs = kind) : Piece.first atStart quote cs =
        (⟨kind, quote :: (Literal.scan (· == '\n') quote cs).1⟩,
          (Literal.scan (· == '\n') quote cs).2) := by
    rw [Piece.first, hkind]
    rcases hk with rfl | rfl <;> rfl
  rcases hq with rfl | rfl
  · refine ⟨.string, fun cs => ?_⟩
    rw [pieces, hfirst (.inl rfl) cs (by simp [Piece.kindAt]), hstart (.inl rfl)]
  · refine ⟨.character, fun cs => ?_⟩
    rw [pieces, hfirst (.inr rfl) cs (by simp [Piece.kindAt]), hstart (.inr rfl)]

end Follows

end Flowchart
