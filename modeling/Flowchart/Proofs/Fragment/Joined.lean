import Flowchart.Proofs.Fragment.Lines
import Flowchart.Proofs.Pieces.Tail

/-!
# Fragments of sources put together

`tokenize_append_newline`: with a line break between them, two sources have the fragments that each
has by itself, those of the second one moved, unless the first one leaves a block comment open.

* `assemble_pieces_break`: the statement under way, the place where a statement may begin and
  everything else that the scan remembers end with the line.
* `assemble_moved`: fragments that begin further right are the same fragments, moved.
-/

namespace Flowchart

open Text (byteLength)

/-- Scanning the source leaves a block comment open at its end. -/
def endsInBlockComment (source : List Char) : Bool :=
  (pieces true source).getLast?.any Piece.isOpenComment

/-! ## Line breaks -/

theorem byteWidth_pieces (atStart : Bool) (cs : List Char) :
    byteWidth (pieces atStart cs) = byteLength cs := by
  rw [byteWidth, flatMap_text_pieces]

/-- What comes after a line break is assembled from the start. -/
theorem assemble_pieces_break {atStart : Bool} {cs : List Char}
    (h : (pieces atStart cs).getLast?.any Piece.isOpenComment = false) (offset : Nat)
    (u : Option Unfinished) (ds : List Char) :
    assemble offset u (pieces atStart (cs ++ '\n' :: ds)) =
      assemble offset u (pieces atStart cs) ++
        assemble (offset + (byteLength cs + 1)) none (pieces true ds) := by
  rw [pieces_append_break h, assemble_append_newline rfl, byteWidth_pieces, Nat.add_assoc]
  rfl

/-! ## Moving fragments -/

namespace Span

theorem moved_between (distance a b : Nat) :
    (between a b).moved distance = between (a + distance) (b + distance) := by
  ext
  · rfl
  · simp only [moved, stop_between]
    omega

theorem moved_union (distance : Nat) (s t : Span) :
    (s.union t).moved distance = (s.moved distance).union (t.moved distance) := by
  ext
  · simp only [moved, union]
    omega
  · simp only [moved, union]
    omega

end Span

namespace Unfinished

/-- The same statement `distance` bytes further right. -/
def moved (distance : Nat) (u : Unfinished) : Unfinished :=
  { u with span := u.span.moved distance }

theorem finish_moved (distance : Nat) (u : Option Unfinished) :
    finish (u.map (moved distance)) = (finish u).map (Fragment.moved distance) := by
  cases u with
  | none => rfl
  | some u =>
    unfold finish
    cases h : (Text.trim u.text).isEmpty <;> simp [moved, h, Fragment.moved]

theorem map_pad_moved (distance : Nat) (text : List Char) (u : Option Unfinished) :
    (u.map (moved distance)).map (pad text) = (u.map (pad text)).map (moved distance) := by
  cases u <;> rfl

theorem extend_moved (distance : Nat) (text : List Char) (s : Span) (u : Option Unfinished) :
    extend text (s.moved distance) (u.map (moved distance)) =
      (extend text s u).moved distance := by
  cases u with
  | none => rfl
  | some u => simp [extend, moved, Span.moved_union]

end Unfinished

/-- Fragments that begin `distance` bytes further right. -/
theorem assemble_moved (distance offset : Nat) (u : Option Unfinished) (ps : List Piece) :
    assemble (offset + distance) (u.map (.moved distance)) ps =
      (assemble offset u ps).map (.moved distance) := by
  induction ps generalizing offset u with
  | nil => exact Unfinished.finish_moved distance u
  | cons p ps ih =>
    have hnext : offset + distance + byteLength p.text = offset + byteLength p.text + distance := by
      omega
    have hidle : assemble (offset + byteLength p.text + distance) none ps =
        (assemble (offset + byteLength p.text) none ps).map (.moved distance) := ih _ none
    rcases p.newline_or_standsAlone_or_directive_or_isInner with hk | hk | hk | hk
    · rw [assemble_newline hk, assemble_newline hk, List.map_append, Unfinished.finish_moved, hnext,
        hidle]
    · rw [assemble_standsAlone hk, assemble_standsAlone hk, List.map_append,
        Unfinished.finish_moved, hnext, hidle, List.map_cons, Fragment.moved, Span.moved_between]
    · rw [assemble_directive hk, assemble_directive hk, hnext, ih]
    · cases hi : p.isIgnored with
      | true =>
        rw [assemble_pad hi hk, assemble_pad hi hk, hnext, Unfinished.map_pad_moved, ih]
      | false =>
        rw [assemble_extend hi hk, assemble_extend hi hk, hnext, ← Span.moved_between,
          Unfinished.extend_moved, ← ih]
        rfl

/-! ## Two sources -/

/-- **Lines are independent.** A line break ends a statement, a literal that is left open, a
backslash, a directive and a line comment; only a block comment goes on after it. So the fragments
of two sources with a line break between them are those of the first and, moved behind it, those of
the second. -/
theorem tokenize_append_newline (a b : List Char) (h : endsInBlockComment a = false) :
    tokenize (a ++ '\n' :: b) =
      tokenize a ++ (tokenize b).map (Fragment.moved (byteLength a + 1)) := by
  have hmoved := assemble_moved (byteLength a + 1) 0 none (pieces true b)
  rw [tokenize, assemble_pieces_break h, tokenize, tokenize, ← hmoved]
  rfl

/-- A directive, a line comment with a quote in it, and a literal that ends in a backslash. -/
theorem tokenize_append_newline_literal :
    let a := "#define N \"\nx = N; // it's\ns = \"open\\".toList
    let b := "\" else".toList
    endsInBlockComment a = false ∧
    tokenize (a ++ '\n' :: b) = tokenize a ++ (tokenize b).map (Fragment.moved 38) := by
  intro a b
  have h : endsInBlockComment a = false := by decide +kernel
  exact ⟨h, tokenize_append_newline a b h⟩

/-- A block comment that is open swallows the next lines. -/
example : endsInBlockComment "x = 1; /* a".toList = true ∧
    tokenize ("x = 1; /* a".toList ++ '\n' :: "y = 2;".toList) =
      tokenize "x = 1; /* a".toList := by
  decide +kernel

end Flowchart
