import Flowchart.Proofs.Block.Limit
import Flowchart.Proofs.Block.Similar
import Flowchart.Proofs.Fragment.Joined
import Flowchart.Proofs.Fragment.Rescan

/-!
# Closing braces at the end

A block that nothing closes reaches to the end of the fragments, so closing braces there make no
difference, however many blocks are open.

* `openings_append_close`: they open no block, so the first block that lies too deep stays the same.
* `Program.ofFragments_append_close`: the same program, or the same failure.
* `Program.ofSource_append_closers`: the same for a source and closing braces on lines of their own.
-/

namespace Flowchart

open Text (joinLines nextLines)

variable {fs closers : List Fragment} {limit : Nat}

namespace Block

/-! ## What is opened -/

theorem openings_isClose (h : ∀ c ∈ closers, c.isClose = true) (σ : Option Context) :
    openings σ closers = [] := by
  induction closers generalizing σ with
  | nil => exact openings_nil σ
  | cons c closers ih =>
    obtain ⟨hc, hclosers⟩ := List.forall_mem_cons.mp h
    cases σ with
    | none => exact openings_none _
    | some σ => rw [openings_close hc, ih hclosers]

theorem openings_append_close (h : ∀ c ∈ closers, c.isClose = true) (σ : Option Context)
    (fs : List Fragment) : openings σ (fs ++ closers) = openings σ fs := by
  induction fs generalizing σ with
  | nil => rw [List.nil_append, openings_isClose h, openings_nil]
  | cons f fs ih =>
    cases σ with
    | none => rw [openings_none, openings_none]
    | some σ => rw [List.cons_append, openings, openings, ih]

/-! ## What is read -/

/-- What the fragments open decides whether they make a program, and how they fail to. -/
theorem ofFragments_cases (limit : Nat) (fs : List Fragment) :
    (∃ p, Program.ofFragments limit fs = .ok p) ∨
    ∃ o, (openings (some (.idle [])) fs).find? (limit ≤ ·.depth) = some o ∧
      Program.ofFragments limit fs = .error ⟨o.header.span, limit⟩ := by
  obtain ⟨ns, rest, hmeets⟩ := meets_openings fs
  cases hfirst : (openings (some (.idle [])) fs).find? (limit ≤ ·.depth) with
  | none =>
    have hbound : ∀ o ∈ openings (some (.idle [])) fs, o.depth < limit := by
      simpa using hfirst
    refine .inl ⟨.ofNodes ns, ?_⟩
    rw [Program.ofFragments, reads_block_iff.mpr (hmeets.reads limit hbound)]
    rfl
  | some o =>
    refine .inr ⟨o, rfl, ?_⟩
    rw [Program.ofFragments, Block.read, Job.Fails.block_iff.mp (hmeets.fails limit o hfirst)]
    rfl

end Block

open Block

/-- Closing braces at the end change neither the program nor the failure. -/
theorem Program.ofFragments_append_close (h : ∀ c ∈ closers, c.isClose = true) (limit : Nat)
    (fs : List Fragment) : ofFragments limit (fs ++ closers) = ofFragments limit fs := by
  have hsimilar : Similar (fs ++ closers) (fs ++ []) := .append rfl (.ends h (by simp))
  rw [List.append_nil] at hsimilar
  rcases ofFragments_cases limit fs with ⟨p, hp⟩ | ⟨o, hfirst, herror⟩
  · rw [hp, hsimilar.ofFragments_iff limit p, hp]
  · rcases ofFragments_cases limit (fs ++ closers) with ⟨p, hp⟩ | ⟨o', hfirst', herror'⟩
    · rw [hsimilar.ofFragments_iff limit p, herror] at hp
      cases hp
    · rw [openings_append_close h, hfirst] at hfirst'
      obtain rfl := Option.some.inj hfirst'
      rw [herror, herror']

/-! ## Sources -/

/-- Closing braces on lines of their own are fragments of their own. -/
theorem texts_tokenize_closers {ls : List (List Char)} (h : ∀ l ∈ ls, l = ['}']) :
    texts (tokenize (joinLines ls)) = ls :=
  texts_tokenize_of_printed (printed_joinLines ls) fun l hl => isLine_alone (.inr (.inl (h l hl)))

theorem isClose_of_texts {ls : List (List Char)} (h : ∀ l ∈ ls, l = ['}'])
    (htexts : texts closers = ls) : ∀ c ∈ closers, c.isClose = true := by
  intro c hc
  have hmem : c.text ∈ ls := htexts ▸ List.mem_map_of_mem hc
  rw [Fragment.isClose, h _ hmem]
  rfl

theorem exists_tokenize_append_closers {source : List Char}
    (h : endsInBlockComment source = false) (k : Nat) :
    ∃ closers, (∀ c ∈ closers, c.isClose = true) ∧
      tokenize (source ++ nextLines (List.replicate k ['}'])) = tokenize source ++ closers := by
  have hclose : ∀ l ∈ List.replicate k ['}'], l = ['}'] := fun l hl => List.eq_of_mem_replicate hl
  cases hls : List.replicate k ['}'] with
  | nil => exact ⟨[], by simp, by rw [nextLines, List.append_nil, List.append_nil]⟩
  | cons l ls =>
    rw [hls] at hclose
    refine ⟨_, isClose_of_texts hclose ?_, assemble_pieces_break h 0 none _⟩
    rw [texts_assemble_congr rfl]
    exact texts_tokenize_closers hclose

/-- **Missing closing braces.** A source makes the same program with any number of closing braces
after it, or it fails at the same header, unless it ends inside a block comment. -/
theorem Program.ofSource_append_closers (source : List Char)
    (h : endsInBlockComment source = false) (limit k : Nat) :
    ofSource limit (source ++ (List.replicate k ['\n', '}']).flatten) = ofSource limit source := by
  obtain ⟨closers, hclose, htokens⟩ := exists_tokenize_append_closers h k
  rw [← Text.nextLines_replicate, ofSource, htokens, ofFragments_append_close hclose, ofSource]

/-- Two blocks are open, the inner one with its `else` still to come, and one brace more is put in
than would close them. -/
theorem Program.ofSource_append_closers_open :
    let source := "while (a) \x7b\nif (b) \x7b\nprintf(\"c".toList
    endsInBlockComment source = false ∧
    ∀ limit, ofSource limit (source ++ (List.replicate 3 ['\n', '}']).flatten) =
      ofSource limit source := by
  intro source
  have h : endsInBlockComment source = false := by decide +kernel
  exact ⟨h, fun limit => ofSource_append_closers source h limit 3⟩

end Flowchart
