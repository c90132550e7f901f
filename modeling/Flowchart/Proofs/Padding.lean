import Flowchart.Proofs.Literal
import Flowchart.Proofs.Pieces

/-!
# Semicolons and white space

* `IsPadding`: semicolons and white space. None of it is a word, begins a comment or ends a literal
  (`IsPadding.not_mem`, `IsPadding.not_word`, `IsPadding.plain`).
* `AtLineEnd`: what is left of a text at the end of a line.
-/

namespace Flowchart

open Text (isBlank)

/-- Semicolons and white space. -/
def IsPadding (w : List Char) : Prop := ∀ c ∈ w, c = ';' ∨ isBlank c = true

namespace IsPadding

variable {w : List Char} {c : Char}

theorem nil : IsPadding [] := by simp [IsPadding]

theorem singleton : IsPadding [';'] := by simp [IsPadding]

theorem append {v : List Char} (hv : IsPadding v) (hw : IsPadding w) : IsPadding (v ++ w) :=
  List.forall_mem_append.mpr ⟨hv, hw⟩

theorem of_blank (hb : Text.isBlankText w = true) : IsPadding w :=
  fun _ hc => .inr (Text.isBlankText_iff.mp hb _ hc)

theorem not_mem (hw : IsPadding w) (hc : c ≠ ';') (hb : isBlank c = false) : c ∉ w := by
  intro hm
  rcases hw c hm with h | h
  · exact hc h
  · rw [hb] at h
    cases h

theorem not_word (hw : IsPadding w) : ∀ c ∈ w, isWordChar c = false := by
  intro c hm
  rcases hw c hm with rfl | hb
  · decide
  · by_contra hc
    rw [isBlank_of_isWordChar (by simpa using hc)] at hb
    cases hb

/-- Padding ends no literal. -/
theorem plain (hw : IsPadding w) {quote : Char} (hq : quote = '"' ∨ quote = '\'') :
    ∀ c ∈ w, c ≠ quote ∧ c ≠ '\\' := by
  intro c hc
  refine ⟨?_, ne_of_mem_of_not_mem hc (hw.not_mem (by decide) (by decide))⟩
  rcases hq with rfl | rfl <;> exact ne_of_mem_of_not_mem hc (hw.not_mem (by decide) (by decide))

end IsPadding

/-- The line ends here. -/
def AtLineEnd (z : List Char) : Prop := ∀ c ∈ z.head?, c = '\n'

namespace AtLineEnd

variable {z : List Char}

theorem nil : AtLineEnd [] := by simp [AtLineEnd]

theorem newline (z : List Char) : AtLineEnd ('\n' :: z) := by simp [AtLineEnd]

theorem nextLines (ls : List (List Char)) : AtLineEnd (Text.nextLines ls) := by
  cases ls with
  | nil => exact .nil
  | cons l ls => exact .newline _

theorem eq_nil_or (hz : AtLineEnd z) : z = [] ∨ ∃ y, z = '\n' :: y := by
  cases z with
  | nil => exact .inl rfl
  | cons c y => exact .inr ⟨y, by rw [hz c rfl]⟩

theorem dropWhile_eq (hz : AtLineEnd z) : z.dropWhile (· != '\n') = z := by
  rcases hz.eq_nil_or with rfl | ⟨y, rfl⟩ <;> rfl

theorem dropWhile_append (hz : AtLineEnd z) {w : List Char} (hw : '\n' ∉ w) :
    (w ++ z).dropWhile (· != '\n') = z := by
  rw [List.dropWhile_append_of_pos, hz.dropWhile_eq]
  intro c hc
  simpa using ne_of_mem_of_not_mem hc hw

end AtLineEnd

end Flowchart
