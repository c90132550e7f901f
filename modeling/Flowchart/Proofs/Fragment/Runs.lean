import Flowchart.Proofs.Pieces

/-!
# Runs of pieces that make fragments

* `MadeOf`: a fragment is made of a run of pieces, which is a statement (`IsStatement`) or one piece
  that stands alone.
* `Cuts`: the pieces of a text are runs in order with ignored pieces between them.
* `cuts_assemble`: `assemble` cuts its pieces so. The proof reads it as a machine: `Pending` ties
  the statement under way to the pieces seen since the last fragment, and each kind of piece keeps
  `Pending` or ends the statement.
-/

namespace Flowchart

open Text (byteLength isBlank isBlankText trim)

namespace Piece

/-- The piece belongs to no statement: white space, a comment or a directive. -/
def isIgnored (p : Piece) : Bool :=
  match p.kind with
  | .comment | .directive => true
  | _ => isBlankText p.text

/-- The piece is a fragment of its own. -/
def standsAlone (p : Piece) : Bool :=
  match p.kind with
  | .openBrace | .closeBrace | .otherwise => true
  | _ => false

/-- The piece may stand inside a statement. -/
def isInner (p : Piece) : Bool :=
  match p.kind with
  | .string | .character | .word | .symbol | .comment => true
  | _ => false

theorem isInner_of_standsAlone {p : Piece} (h : p.standsAlone = true) : p.isInner = false := by
  cases hk : p.kind <;> simp_all [isInner, standsAlone]

theorem of_isIgnored_eq_false (p : Piece) (h : p.isIgnored = false) :
    p.kind ≠ .comment ∧ isBlankText p.text = false := by
  cases hk : p.kind <;> simp_all [isIgnored]

/-- What may stand inside a statement holds no line break, comments aside. -/
theorem newline_not_mem {p : Piece} (hs : p.Shaped) (hin : p.isInner = true)
    (hk : p.kind ≠ .comment) : '\n' ∉ p.text := by
  obtain ⟨kind, text⟩ := p
  cases kind with
  | comment => exact absurd rfl hk
  | string | character =>
    obtain ⟨t, rfl, ht⟩ := hs
    simp [ht]
  | word => exact fun hm => absurd (hs.2.2 _ hm) (by decide)
  | symbol =>
    obtain ⟨c, rfl, -, hc⟩ := hs
    rintro hm
    obtain rfl := List.mem_singleton.mp hm
    simp at hc
  | directive | newline | openBrace | closeBrace | otherwise => exact absurd hin Bool.false_ne_true

end Piece

/-- The number of bytes that pieces take. -/
def byteWidth (ps : List Piece) : Nat := byteLength (ps.flatMap Piece.text)

/-- The text of pieces, with one space for each comment. -/
def withoutComments (ps : List Piece) : List Char :=
  ps.flatMap fun p => if p.kind = .comment then [' '] else p.text

/-- The pieces with the byte at which each begins, the first one at `offset`. -/
def placed (offset : Nat) : List Piece → List (Nat × Piece)
  | [] => []
  | p :: ps => (offset, p) :: placed (offset + byteLength p.text) ps

@[simp] theorem byteWidth_nil : byteWidth [] = 0 := rfl

@[simp] theorem byteWidth_append (as bs : List Piece) :
    byteWidth (as ++ bs) = byteWidth as + byteWidth bs := by
  simp [byteWidth]

@[simp] theorem byteWidth_cons (p : Piece) (ps : List Piece) :
    byteWidth (p :: ps) = byteLength p.text + byteWidth ps := by
  simp [byteWidth]

@[simp] theorem withoutComments_append (as bs : List Piece) :
    withoutComments (as ++ bs) = withoutComments as ++ withoutComments bs :=
  List.flatMap_append

@[simp] theorem placed_append (offset : Nat) (as bs : List Piece) :
    placed offset (as ++ bs) = placed offset as ++ placed (offset + byteWidth as) bs := by
  induction as generalizing offset with
  | nil => rfl
  | cons a as ih => simp [placed, ih, Nat.add_assoc]

theorem of_mem_placed {offset : Nat} {ps : List Piece} {q : Nat × Piece}
    (h : q ∈ placed offset ps) :
    offset ≤ q.1 ∧ q.1 + byteLength q.2.text ≤ offset + byteWidth ps ∧ q.2 ∈ ps := by
  induction ps generalizing offset with
  | nil => cases h
  | cons p ps ih =>
    rw [byteWidth_cons]
    rcases List.mem_cons.mp h with rfl | h
    · exact ⟨Nat.le_refl _, Nat.add_le_add_left (Nat.le_add_right ..) _, List.mem_cons_self⟩
    · obtain ⟨h1, h2, h3⟩ := ih h
      exact ⟨by omega, by omega, List.mem_cons_of_mem _ h3⟩

theorem Span.union_between {a b c d : Nat} (hab : a ≤ b) (hbc : b ≤ c) (hcd : c ≤ d) :
    (Span.between a b).union (.between c d) = .between a d := by
  ext <;> simp only [Span.union, Span.start_between, Span.stop_between] <;> omega

/-! ## Runs of pieces that make a fragment -/

/-- The pieces of a statement: it begins and ends with one that is more than white space and
comments. -/
structure IsStatement (run : List Piece) : Prop where
  inner : ∀ p ∈ run, p.isInner = true
  head : ∃ p ∈ run.head?, p.isIgnored = false
  last : ∃ p ∈ run.getLast?, p.isIgnored = false

/-- The fragment is made of the pieces `run`, the first of which begins at byte `offset`. -/
structure MadeOf (offset : Nat) (run : List Piece) (f : Fragment) : Prop where
  span : f.span = .between offset (offset + byteWidth run)
  text : f.text = trim (withoutComments run)
  shape : IsStatement run ∨ ∃ p, run = [p] ∧ p.standsAlone = true

/-- The pieces from byte `offset` on are the runs of which the fragments are made, in order, with
ignored pieces between them. -/
inductive Cuts : Nat → List Piece → List Fragment → Prop where
  | done {offset : Nat} {gap : List Piece} (ignored : ∀ p ∈ gap, p.isIgnored = true) :
      Cuts offset gap []
  | cut {offset : Nat} {gap run rest : List Piece} {f : Fragment} {fs : List Fragment}
      (ignored : ∀ p ∈ gap, p.isIgnored = true) (made : MadeOf (offset + byteWidth gap) run f)
      (more : Cuts (offset + byteWidth gap + byteWidth run) rest fs) :
      Cuts offset (gap ++ run ++ rest) (f :: fs)

/-- Ignored pieces in front widen the first gap. -/
theorem Cuts.prepend {gap : List Piece} (hg : ∀ p ∈ gap, p.isIgnored = true) {offset : Nat}
    {ps : List Piece} {fs : List Fragment} (h : Cuts (offset + byteWidth gap) ps fs) :
    Cuts offset (gap ++ ps) fs := by
  cases h with
  | done ignored => exact .done (List.forall_mem_append.mpr ⟨hg, ignored⟩)
  | @cut _ gap' run rest f fs ignored made more =>
    rw [show gap ++ (gap' ++ run ++ rest) = (gap ++ gap') ++ run ++ rest by simp]
    refine .cut (List.forall_mem_append.mpr ⟨hg, ignored⟩) ?_ ?_
    · rwa [byteWidth_append, ← Nat.add_assoc]
    · rwa [byteWidth_append, ← Nat.add_assoc]

theorem Cuts.nil (offset : Nat) : Cuts offset [] [] := .done (by simp)

theorem Cuts.skip {p : Piece} (hp : p.isIgnored = true) {offset : Nat} {ps : List Piece}
    {fs : List Fragment} (h : Cuts (offset + byteLength p.text) ps fs) :
    Cuts offset (p :: ps) fs := by
  have hg : ∀ q ∈ [p], q.isIgnored = true := by simpa using hp
  exact Cuts.prepend hg (by simpa using h)

theorem Cuts.next {offset : Nat} {run rest : List Piece} {f : Fragment} {fs : List Fragment}
    (made : MadeOf offset run f) (more : Cuts (offset + byteWidth run) rest fs) :
    Cuts offset (run ++ rest) (f :: fs) := by
  have h : Cuts offset ([] ++ run ++ rest) (f :: fs) := .cut (by simp) made more
  exact h

theorem Cuts.exists_madeOf {offset : Nat} {ps : List Piece} {fs : List Fragment}
    (h : Cuts offset ps fs) : ∀ f ∈ fs, ∃ before run after,
    ps = before ++ run ++ after ∧ MadeOf (offset + byteWidth before) run f := by
  induction h with
  | done => simp
  | @cut offset gap run rest f fs _ made _ ih =>
    refine List.forall_mem_cons.mpr ⟨⟨gap, run, rest, rfl, made⟩, fun g hg => ?_⟩
    obtain ⟨before, run', after, rfl, hg⟩ := ih g hg
    refine ⟨gap ++ run ++ before, run', after, by simp, ?_⟩
    simpa [Nat.add_assoc] using hg

/-- A piece that is not ignored shows a character that is not white space. -/
theorem exists_not_blank {run : List Piece} {p : Piece} (hp : p ∈ run)
    (h : p.isIgnored = false) : ∃ c ∈ p.text, isBlank c = false ∧ c ∈ withoutComments run := by
  obtain ⟨hk, hb⟩ := p.of_isIgnored_eq_false h
  obtain ⟨c, hc, hcb⟩ := List.all_eq_false.mp hb
  refine ⟨c, hc, by simpa using hcb, List.mem_flatMap.mpr ⟨p, hp, ?_⟩⟩
  rwa [if_neg hk]

theorem IsStatement.trim_ne_nil {run : List Piece} (h : IsStatement run) :
    trim (withoutComments run) ≠ [] := by
  obtain ⟨p, hp, hi⟩ := h.head
  obtain ⟨c, -, hc, hm⟩ := exists_not_blank (List.mem_of_mem_head? hp) hi
  rw [Ne, Text.trim_eq_nil_iff, Text.isBlankText_iff]
  intro hb
  rw [hb c hm] at hc
  cases hc

/-! ## The machine that assembles fragments -/

/-- The pieces `seen` since the last fragment leave the statement `u` under way. The span of the
statement ends with its last piece that is not ignored, while its text goes on. -/
inductive Pending (offset : Nat) : List Piece → Option Unfinished → Prop where
  | between {gap : List Piece} (ignored : ∀ p ∈ gap, p.isIgnored = true) : Pending offset gap none
  | within {gap run trail : List Piece} (ignored : ∀ p ∈ gap, p.isIgnored = true)
      (statement : IsStatement run)
      (trailing : ∀ p ∈ trail, p.isIgnored = true ∧ p.isInner = true) :
      Pending offset (gap ++ run ++ trail)
        (some ⟨withoutComments (run ++ trail),
          .between (offset + byteWidth gap) (offset + byteWidth gap + byteWidth run)⟩)

theorem isBlankText_withoutComments {trail : List Piece}
    (h : ∀ p ∈ trail, p.isIgnored = true ∧ p.isInner = true) :
    isBlankText (withoutComments trail) = true := by
  refine Text.isBlankText_iff.mpr fun c hc => ?_
  obtain ⟨p, hp, hc⟩ := List.mem_flatMap.mp hc
  obtain ⟨hi, hin⟩ := h p hp
  by_cases hk : p.kind = .comment
  · rw [if_pos hk, List.mem_singleton] at hc
    subst hc
    decide
  · rw [if_neg hk] at hc
    have hb : isBlankText p.text = true := by
      simp only [Piece.isInner, Piece.isIgnored] at hi hin
      cases hkind : p.kind <;> simp_all
    exact Text.isBlankText_iff.mp hb c hc

namespace Pending

variable {offset : Nat} {seen : List Piece} {u : Option Unfinished} {p : Piece}

/-- A statement that nothing trails yet. -/
theorem begun (offset : Nat) {gap run : List Piece} (ignored : ∀ p ∈ gap, p.isIgnored = true)
    (statement : IsStatement run) :
    Pending offset (gap ++ run) (some ⟨withoutComments run,
      .between (offset + byteWidth gap) (offset + byteWidth gap + byteWidth run)⟩) := by
  have h : Pending offset (gap ++ run ++ []) _ := .within ignored statement (by simp)
  simpa using h

/-- An ignored piece between statements. -/
theorem skip (h : Pending offset seen none) (hp : p.isIgnored = true) :
    Pending offset (seen ++ [p]) none := by
  cases h with
  | between ignored => exact .between (List.forall_mem_append.mpr ⟨ignored, by simpa using hp⟩)

/-- A comment or white space does not widen the span of a statement. -/
theorem pad (h : Pending offset seen u) (hi : p.isIgnored = true) (hin : p.isInner = true) :
    Pending offset (seen ++ [p]) (u.map (.pad (withoutComments [p]))) := by
  cases h with
  | between ignored => exact (between ignored).skip hi
  | @within gap run trail ignored statement trailing =>
    have h : Pending offset (gap ++ run ++ (trail ++ [p])) _ := .within ignored statement
      (List.forall_mem_append.mpr ⟨trailing, List.forall_mem_singleton.mpr ⟨hi, hin⟩⟩)
    simpa [Unfinished.pad] using h

/-- Any other piece of a statement begins it or widens its span. -/
theorem extend (h : Pending offset seen u) (hi : p.isIgnored = false) (hin : p.isInner = true) :
    Pending offset (seen ++ [p]) (some (.extend (withoutComments [p])
      (.between (offset + byteWidth seen) (offset + byteWidth seen + byteWidth [p])) u)) := by
  cases h with
  | between ignored =>
    have hs : IsStatement [p] := ⟨by simpa using hin, ⟨p, rfl, hi⟩, ⟨p, rfl, hi⟩⟩
    simpa [Unfinished.extend] using begun offset ignored hs
  | @within gap run trail ignored statement trailing =>
    have hs : IsStatement (run ++ trail ++ [p]) := by
      refine ⟨?_, ?_, p, by simp, hi⟩
      · simp only [List.forall_mem_append, List.forall_mem_singleton]
        exact ⟨⟨statement.inner, fun q hq => (trailing q hq).2⟩, hin⟩
      · obtain ⟨q, hq, hqi⟩ := statement.head
        exact ⟨q, by simp_all, hqi⟩
    have h := begun offset ignored hs
    simp only [Unfinished.extend, ← withoutComments_append]
    rw [Span.union_between (by omega) (by simp only [byteWidth_append]; omega) (by omega)]
    simpa [Nat.add_assoc] using h

/-- The end of a statement, where anything that follows is cut already. -/
theorem finish (h : Pending offset seen u) {ps : List Piece} {fs : List Fragment}
    (hc : Cuts (offset + byteWidth seen) ps fs) :
    Cuts offset (seen ++ ps) (Unfinished.finish u ++ fs) := by
  cases h with
  | between ignored => exact hc.prepend ignored
  | @within gap run trail ignored statement trailing =>
    have htext : trim (withoutComments (run ++ trail)) = trim (withoutComments run) := by
      rw [withoutComments_append, Text.trim_append_blank (isBlankText_withoutComments trailing)]
    have hne : (trim (withoutComments run)).isEmpty = false := by
      simpa using statement.trim_ne_nil
    simp only [Unfinished.finish, htext, hne, Bool.false_eq_true, ↓reduceIte]
    rw [List.append_assoc]
    refine .cut ignored ⟨rfl, rfl, .inl statement⟩ (.prepend (fun p hp => (trailing p hp).1) ?_)
    simpa [Nat.add_assoc] using hc

end Pending

/-! ## One step of the machine -/

section Step

variable {offset : Nat} {u : Option Unfinished} {p : Piece} {ps : List Piece} {atStart : Bool}

theorem assemble_newline (h : p.kind = .newline) :
    assemble offset u (p :: ps) =
      Unfinished.finish u ++ assemble (offset + byteLength p.text) none ps := by
  rw [assemble, h]

theorem assemble_standsAlone (h : p.standsAlone = true) :
    assemble offset u (p :: ps) = Unfinished.finish u ++
      ⟨p.text, .between offset (offset + byteLength p.text)⟩ ::
        assemble (offset + byteLength p.text) none ps := by
  rw [assemble]
  cases hk : p.kind <;> simp_all [Piece.standsAlone]

theorem assemble_directive (h : p.kind = .directive) :
    assemble offset u (p :: ps) = assemble (offset + byteLength p.text) u ps := by
  rw [assemble, h]

/-- A comment counts as one space, white space as itself. -/
theorem assemble_pad (hi : p.isIgnored = true) (hin : p.isInner = true) :
    assemble offset u (p :: ps) =
      assemble (offset + byteLength p.text) (u.map (.pad (withoutComments [p]))) ps := by
  rw [assemble]
  cases hk : p.kind <;> simp_all [Piece.isInner, Piece.isIgnored, withoutComments]

theorem assemble_extend (hi : p.isIgnored = false) (hin : p.isInner = true) :
    assemble offset u (p :: ps) = assemble (offset + byteLength p.text)
      (some (.extend (withoutComments [p])
        (.between offset (offset + byteLength p.text)) u)) ps := by
  rw [assemble]
  cases hk : p.kind <;> simp_all [Piece.isInner, Piece.isIgnored, withoutComments]

/-- The pieces by what they do to the statement under way. -/
theorem Piece.newline_or_standsAlone_or_directive_or_isInner (p : Piece) :
    p.kind = .newline ∨ p.standsAlone = true ∨ p.kind = .directive ∨ p.isInner = true := by
  cases hk : p.kind <;> simp [standsAlone, isInner, hk]

/-- A line break ends what is before it. -/
theorem assemble_append_newline (hp : p.kind = .newline) (qs : List Piece) :
    assemble offset u (ps ++ p :: qs) = assemble offset u ps ++
      assemble (offset + byteWidth ps + byteLength p.text) none qs := by
  induction ps generalizing offset u with
  | nil => rw [List.nil_append, assemble_newline hp, assemble, byteWidth_nil, Nat.add_zero]
  | cons q ps ih =>
    rw [List.cons_append, byteWidth_cons, ← Nat.add_assoc]
    rcases q.newline_or_standsAlone_or_directive_or_isInner with hk | hk | hk | hk
    · rw [assemble_newline hk, assemble_newline hk, ih, List.append_assoc]
    · rw [assemble_standsAlone hk, assemble_standsAlone hk, ih, List.append_assoc, List.cons_append]
    · rw [assemble_directive hk, assemble_directive hk, ih]
    · cases hi : q.isIgnored with
      | true => rw [assemble_pad hi hk, assemble_pad hi hk, ih]
      | false => rw [assemble_extend hi hk, assemble_extend hi hk, ih]

theorem Piece.leavesAtStart_newline (h : p.kind = .newline) : p.leavesAtStart atStart = true := by
  simp [leavesAtStart, h]

theorem Piece.leavesAtStart_standsAlone (h : p.standsAlone = true) :
    p.leavesAtStart atStart = true := by
  cases hk : p.kind <;> simp_all [standsAlone, leavesAtStart]

theorem Piece.leavesAtStart_directive (h : p.kind = .directive) :
    p.leavesAtStart atStart = atStart := by
  simp [leavesAtStart, h]

theorem Piece.leavesAtStart_inner (h : p.isInner = true) :
    p.leavesAtStart atStart = (atStart && p.isIgnored) := by
  cases hk : p.kind <;> simp_all [isInner, isIgnored, leavesAtStart]

end Step

theorem Piece.isIgnored_newline {p : Piece} (hs : p.Shaped) (h : p.kind = .newline) :
    p.isIgnored = true := by
  have ht : p.text = ['\n'] := by simpa [Shaped, h] using hs
  rw [isIgnored, h, ht]
  decide

theorem Piece.eq_of_standsAlone {p : Piece} (hs : p.Shaped) (h : p.standsAlone = true) :
    p = ⟨.openBrace, ['{']⟩ ∨ p = ⟨.closeBrace, ['}']⟩ ∨ p = ⟨.otherwise, "else".toList⟩ := by
  obtain ⟨kind, text⟩ := p
  cases kind with
  | openBrace | closeBrace | otherwise =>
    obtain rfl : text = _ := hs
    simp
  | string | character | word | symbol | comment | directive | newline =>
    exact absurd h Bool.false_ne_true

theorem Piece.trim_of_standsAlone {p : Piece} (hs : p.Shaped) (h : p.standsAlone = true) :
    trim (withoutComments [p]) = p.text := by
  rcases eq_of_standsAlone hs h with rfl | rfl | rfl <;> decide

theorem Piece.isIgnored_of_standsAlone {p : Piece} (hs : p.Shaped) (h : p.standsAlone = true) :
    p.isIgnored = false := by
  rcases eq_of_standsAlone hs h with rfl | rfl | rfl <;> decide

/-! ## Whole runs of the machine -/

theorem cuts_assemble {ps : List Piece} {offset : Nat} {seen : List Piece} {u : Option Unfinished}
    (hs : Scanned u.isNone ps) (h : Pending offset seen u) :
    Cuts offset (seen ++ ps) (assemble (offset + byteWidth seen) u ps) := by
  induction ps generalizing offset seen u with
  | nil => simpa [assemble] using h.finish (.nil _)
  | cons p ps ih =>
    obtain _ | ⟨shaped, start, -, rest⟩ := hs
    have hw : offset + byteWidth seen + byteLength p.text = offset + byteWidth (seen ++ [p]) := by
      simp [Nat.add_assoc]
    have hidle (hr : Scanned true ps) : Cuts (offset + byteWidth seen + byteLength p.text) ps
        (assemble (offset + byteWidth seen + byteLength p.text) none ps) := by
      have h0 : Pending (offset + byteWidth seen + byteLength p.text) [] none := .between (by simp)
      have hr0 : Scanned (none : Option Unfinished).isNone ps := hr
      simpa using ih hr0 h0
    rcases p.newline_or_standsAlone_or_directive_or_isInner with hk | hk | hk | hk
    · rw [assemble_newline hk]
      rw [Piece.leavesAtStart_newline hk] at rest
      exact h.finish (.skip (Piece.isIgnored_newline shaped hk) (hidle rest))
    · rw [assemble_standsAlone hk]
      rw [Piece.leavesAtStart_standsAlone hk] at rest
      have hm : MadeOf (offset + byteWidth seen) [p] ⟨p.text, .between (offset + byteWidth seen)
          (offset + byteWidth seen + byteLength p.text)⟩ :=
        ⟨by simp, (Piece.trim_of_standsAlone shaped hk).symm, .inr ⟨p, rfl, hk⟩⟩
      exact h.finish (.next hm (by simpa using hidle rest))
    · obtain rfl := Option.isNone_iff_eq_none.mp (start hk)
      rw [Piece.leavesAtStart_directive hk] at rest
      rw [assemble_directive hk, hw, List.append_cons]
      exact ih rest (h.skip (by simp [Piece.isIgnored, hk]))
    · rw [Piece.leavesAtStart_inner hk] at rest
      cases hi : p.isIgnored with
      | true =>
        rw [assemble_pad hi hk, hw, List.append_cons]
        exact ih (by simpa [hi] using rest) (h.pad hi hk)
      | false =>
        rw [assemble_extend hi hk, hw, List.append_cons]
        refine ih (by simpa [hi] using rest) ?_
        simpa [Nat.add_assoc] using h.extend hi hk

theorem cuts_tokenize (source : List Char) : Cuts 0 (pieces true source) (tokenize source) := by
  have hscanned : Scanned (none : Option Unfinished).isNone (pieces true source) :=
    scanned_pieces true source
  have hstart : Pending 0 [] none := .between (by simp)
  simpa [tokenize] using cuts_assemble hscanned hstart

end Flowchart
