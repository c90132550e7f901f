import Mathlib.Data.List.DropRight
import Flowchart.Text.Literal

/-!
# White space at the ends of a text, and its lines

* `trim_eq_self_iff`: a text is trimmed if neither its first nor its last character is white space.
* `trim_trim`, `exists_eq_append_trim`: trimming leaves a trimmed text and takes white space only.
* `trim_append_blank`, `trim_blank_append`: white space at the ends makes no difference.
* `of_mem_words`, `words_append_blank`: the words of a text.
* `joinLines_append`: lines put together in two parts.
-/

namespace Flowchart

namespace Text

theorem isBlankText_append (a b : List Char) :
    isBlankText (a ++ b) = (isBlankText a && isBlankText b) := List.all_append

theorem isBlankText_iff {t : List Char} : isBlankText t = true ↔ ∀ c ∈ t, isBlank c = true :=
  List.all_eq_true

/-- The first character that `List.dropWhile` leaves is none of those that it drops. -/
theorem of_mem_head?_dropWhile {p : Char → Bool} {cs : List Char} :
    ∀ c ∈ (cs.dropWhile p).head?, p c = false := by
  intro c hc
  have hnot := List.head?_dropWhile_not p cs
  rw [hc] at hnot
  simpa using hnot

/-! ## The end -/

theorem trimEnd_eq_rdropWhile (t : List Char) : trimEnd t = t.rdropWhile isBlank := rfl

theorem exists_eq_trimEnd_append (t : List Char) :
    ∃ b, isBlankText b = true ∧ t = trimEnd t ++ b := by
  refine ⟨t.rtakeWhile isBlank, isBlankText_iff.mpr fun c hc => List.mem_rtakeWhile_imp hc, ?_⟩
  rw [trimEnd_eq_rdropWhile, List.rdropWhile_append_rtakeWhile]

theorem trimEnd_append_blank {b : List Char} (h : isBlankText b = true) (a : List Char) :
    trimEnd (a ++ b) = trimEnd a := by
  induction b using List.reverseRecOn with
  | nil => rw [List.append_nil]
  | append_singleton b c ih =>
    rw [isBlankText_append, Bool.and_eq_true] at h
    have hc : isBlank c = true := by simpa [isBlankText] using h.2
    rw [← List.append_assoc, trimEnd_eq_rdropWhile, List.rdropWhile_concat_pos _ _ _ hc]
    exact ih h.1

theorem trimEnd_eq_self_iff {t : List Char} :
    trimEnd t = t ↔ ∀ c ∈ t.getLast?, isBlank c = false := by
  rw [trimEnd_eq_rdropWhile, List.rdropWhile_eq_self_iff]
  cases t using List.reverseRecOn with
  | nil => simp
  | append_singleton t c => simp

theorem trimEnd_trimEnd (t : List Char) : trimEnd (trimEnd t) = trimEnd t :=
  List.rdropWhile_idempotent isBlank t

theorem trimEnd_append_of_not_blank {b : List Char} (h : isBlankText b = false) (a : List Char) :
    trimEnd (a ++ b) = a ++ trimEnd b := by
  obtain ⟨e, he, hb⟩ := exists_eq_trimEnd_append b
  have hne : trimEnd b ≠ [] := by
    intro hnil
    rw [hb, hnil, List.nil_append, he] at h
    cases h
  have hself : trimEnd (a ++ trimEnd b) = a ++ trimEnd b := by
    refine trimEnd_eq_self_iff.mpr ?_
    rw [List.getLast?_append_of_ne_nil _ hne]
    exact trimEnd_eq_self_iff.mp (trimEnd_trimEnd b)
  conv => lhs; rw [hb]
  rw [← List.append_assoc, trimEnd_append_blank he, hself]

/-! ## Both ends -/

theorem trimStart_blank_append {b : List Char} (h : isBlankText b = true) (a : List Char) :
    trimStart (b ++ a) = trimStart a :=
  List.dropWhile_append_of_pos (isBlankText_iff.mp h)

theorem trim_blank_append {b : List Char} (h : isBlankText b = true) (a : List Char) :
    trim (b ++ a) = trim a := by
  rw [trim, trimStart_blank_append h, trim]

theorem trimStart_eq_self_iff {t : List Char} :
    trimStart t = t ↔ ∀ c ∈ t.head?, isBlank c = false := by
  cases t with
  | nil => simp [trimStart]
  | cons c t =>
    cases hc : isBlank c with
    | false => simp [trimStart, hc]
    | true =>
      simp only [trimStart, List.dropWhile_cons_of_pos hc, List.head?_cons, Option.mem_some_iff,
        forall_eq', hc, Bool.true_eq_false, iff_false]
      intro h
      have := (List.dropWhile_suffix isBlank (l := t)).length_le
      rw [h, List.length_cons] at this
      omega

theorem trimStart_append_of_not_blank {a : List Char} (h : isBlankText a = false) (b : List Char) :
    trimStart (a ++ b) = trimStart a ++ b := by
  rw [trimStart, List.dropWhile_append, if_neg]
  · rfl
  · rw [List.isEmpty_iff, List.dropWhile_eq_nil_iff, ← isBlankText_iff, h]
    exact Bool.false_ne_true

theorem trim_append_blank {b : List Char} (h : isBlankText b = true) (a : List Char) :
    trim (a ++ b) = trim a := by
  cases ha : isBlankText a with
  | true =>
    have hab : isBlankText (a ++ b) = true := by rw [isBlankText_append, ha, h, Bool.and_self]
    have hnil : ∀ {t}, isBlankText t = true → trim t = [] := fun {t} ht => by
      have := trim_blank_append ht []
      rwa [List.append_nil] at this
    rw [hnil hab, hnil ha]
  | false => rw [trim, trimStart_append_of_not_blank ha, trimEnd_append_blank h, trim]

theorem trim_eq_trimEnd {t : List Char} (h : ∀ c ∈ t.head?, isBlank c = false) :
    trim t = trimEnd t := by
  rw [trim, trimStart_eq_self_iff.mpr h]

theorem trim_eq_self_iff {t : List Char} :
    trim t = t ↔ (∀ c ∈ t.head?, isBlank c = false) ∧ ∀ c ∈ t.getLast?, isBlank c = false := by
  constructor
  · intro h
    have hle := congrArg List.length h
    have h1 := (List.dropWhile_suffix isBlank (l := t)).length_le
    have h2 := (List.rdropWhile_prefix isBlank (l := trimStart t)).length_le
    have hs : trimStart t = t := by
      refine (List.dropWhile_suffix isBlank).eq_of_length (Nat.le_antisymm h1 ?_)
      rw [trim, trimEnd_eq_rdropWhile] at hle
      exact hle ▸ h2
    refine ⟨trimStart_eq_self_iff.mp hs, trimEnd_eq_self_iff.mp ?_⟩
    rwa [trim, hs] at h
  · rintro ⟨h1, h2⟩
    rw [trim_eq_trimEnd h1, trimEnd_eq_self_iff.mpr h2]

theorem exists_eq_append_trim (t : List Char) :
    ∃ a b, isBlankText a = true ∧ isBlankText b = true ∧ t = a ++ trim t ++ b := by
  obtain ⟨b, hb, he⟩ := exists_eq_trimEnd_append (trimStart t)
  refine ⟨t.takeWhile isBlank, b, isBlankText_iff.mpr fun c hc => List.mem_takeWhile_imp hc, hb, ?_⟩
  rw [List.append_assoc, trim, ← he]
  exact List.takeWhile_append_dropWhile.symm

theorem mem_of_mem_trim {c : Char} {t : List Char} (h : c ∈ trim t) : c ∈ t := by
  obtain ⟨a, b, -, -, ht⟩ := exists_eq_append_trim t
  rw [ht]
  simp [h]

/-- Trimming keeps every character that is not white space. -/
theorem mem_trim_of_not_blank {c : Char} {t : List Char} (hc : isBlank c = false) (h : c ∈ t) :
    c ∈ trim t := by
  obtain ⟨a, b, ha, hb, ht⟩ := exists_eq_append_trim t
  rw [ht, List.mem_append, List.mem_append] at h
  rcases h with (h | h) | h
  · exact absurd (isBlankText_iff.mp ha c h) (by simp [hc])
  · exact h
  · exact absurd (isBlankText_iff.mp hb c h) (by simp [hc])

/-- Trimming keeps what stands between characters that are not white space. -/
theorem mem_trim_of_between {a b : List Char} (ha : isBlankText a = false)
    (hb : isBlankText b = false) (c : Char) : c ∈ trim (a ++ c :: b) := by
  rw [trim, trimStart_append_of_not_blank ha, List.append_cons, trimEnd_append_of_not_blank hb]
  simp

theorem trim_eq_nil_iff {t : List Char} : trim t = [] ↔ isBlankText t = true := by
  constructor
  · intro h
    obtain ⟨a, b, ha, hb, ht⟩ := exists_eq_append_trim t
    rw [ht, h, List.append_nil, isBlankText_append, ha, hb, Bool.and_self]
  · intro h
    have := trim_blank_append h []
    rwa [List.append_nil] at this

theorem trim_trim (t : List Char) : trim (trim t) = trim t := by
  obtain ⟨a, b, ha, hb, ht⟩ := exists_eq_append_trim t
  conv => rhs; rw [ht]
  rw [List.append_assoc, trim_blank_append ha, trim_append_blank hb]

/-- Trimming a text with one more character that is no white space keeps the white space before the
character. -/
theorem exists_trim_concat {t : List Char} {c : Char} (h : trim t ≠ []) (hc : isBlank c = false) :
    ∃ a b, isBlankText b = true ∧ t = a ++ trim t ++ b ∧
      trim (t ++ [c]) = trim t ++ (b ++ [c]) := by
  obtain ⟨a, b, ha, hb, ht⟩ := exists_eq_append_trim t
  refine ⟨a, b, hb, ht, ?_⟩
  conv => lhs; rw [ht]
  rw [List.append_assoc, List.append_assoc, trim_blank_append ha, trim_eq_self_iff]
  refine ⟨?_, ?_⟩
  · rw [List.head?_append_of_ne_nil _ h]
    exact (trim_eq_self_iff.mp (trim_trim t)).1
  · intro d hd
    obtain rfl : c = d := by simpa using hd
    exact hc

/-! ## Words -/

/-- No piece of a split text has a character that the text was split at. -/
theorem not_of_mem_splitOnP {p : Char → Bool} {cs piece : List Char} (h : piece ∈ cs.splitOnP p) :
    ∀ c ∈ piece, p c = false := by
  induction cs generalizing piece with
  | nil =>
    rw [List.splitOnP_nil, List.mem_singleton] at h
    simp [h]
  | cons c cs ih =>
    rw [List.splitOnP_cons_eq_if_modifyHead] at h
    by_cases hc : p c = true
    · rw [if_pos hc, List.mem_cons] at h
      rcases h with rfl | h
      · simp
      · exact ih h
    · rw [if_neg hc] at h
      cases hl : cs.splitOnP p with
      | nil => exact absurd hl (List.splitOnP_ne_nil p cs)
      | cons first pieces =>
        rw [hl] at h ih
        rw [List.modifyHead_cons, List.mem_cons] at h
        rcases h with rfl | h
        · exact List.forall_mem_cons.mpr ⟨by simpa using hc, ih List.mem_cons_self⟩
        · exact ih (List.mem_cons_of_mem _ h)

theorem not_mem_of_mem_splitOn {c : Char} {cs piece : List Char} (h : piece ∈ cs.splitOn c) :
    c ∉ piece := by
  intro hmem
  have hne := not_of_mem_splitOnP h c hmem
  simp at hne

/-- A word is not empty and has no white space. -/
theorem of_mem_words {cs word : List Char} (h : word ∈ words cs) :
    word ≠ [] ∧ ∀ c ∈ word, isBlank c = false := by
  obtain ⟨hmem, hne⟩ := List.mem_filter.mp h
  exact ⟨by simpa using hne, not_of_mem_splitOnP hmem⟩

theorem words_append_blank {c : Char} (hc : isBlank c = true) (a b : List Char) :
    words (a ++ c :: b) = words a ++ words b := by
  rw [words, List.splitOnP_append_cons a b hc, List.filter_append, words, words]

theorem words_of_not_blank {word : List Char} (hne : word ≠ [])
    (h : ∀ c ∈ word, isBlank c = false) : words word = [word] := by
  rw [words, List.splitOnP_eq_singleton h]
  simp [hne]

/-! ## Lines -/

/-- Lines that come after other lines, each with the line break before it. -/
def nextLines : List (List Char) → List Char
  | [] => []
  | l :: ls => '\n' :: joinLines (l :: ls)

theorem joinLines_singleton (l : List Char) : joinLines [l] = l := List.intercalate_singleton

theorem joinLines_cons (l : List Char) (ls : List (List Char)) :
    joinLines (l :: ls) = l ++ nextLines ls := by
  cases ls with
  | nil => rw [joinLines_singleton, nextLines, List.append_nil]
  | cons m ls =>
    rw [joinLines, List.intercalate_cons_cons, nextLines, joinLines, List.append_assoc,
      List.singleton_append]

theorem nextLines_cons (l : List Char) (ls : List (List Char)) :
    nextLines (l :: ls) = '\n' :: l ++ nextLines ls := by
  rw [nextLines, joinLines_cons, List.cons_append]

theorem nextLines_replicate (n : Nat) (l : List Char) :
    nextLines (List.replicate n l) = (List.replicate n ('\n' :: l)).flatten := by
  induction n with
  | zero => rfl
  | succ n ih => rw [List.replicate_succ, nextLines_cons, ih, List.replicate_succ, List.flatten_cons]

theorem joinLines_append {as : List (List Char)} (ha : as ≠ []) (bs : List (List Char)) :
    joinLines (as ++ bs) = joinLines as ++ nextLines bs := by
  induction as with
  | nil => exact absurd rfl ha
  | cons a as ih =>
    rw [List.cons_append, joinLines_cons, joinLines_cons]
    cases as with
    | nil => rw [List.nil_append, nextLines, List.append_nil]
    | cons c as =>
      rw [List.cons_append, nextLines, ← List.cons_append, ih (List.cons_ne_nil _ _), nextLines,
        List.append_assoc, List.cons_append]

/-- A text cut inside a line. -/
theorem joinLines_append_cons (before : List (List Char)) (a b : List Char)
    (after : List (List Char)) :
    joinLines (before ++ (a ++ b) :: after) =
      joinLines (before ++ [a]) ++ b ++ nextLines after := by
  rw [List.append_cons, joinLines_append (by simp)]
  cases before with
  | nil => simp only [List.nil_append, joinLines_singleton]
  | cons c before =>
    have hne := List.cons_ne_nil c before
    rw [joinLines_append hne, joinLines_append hne, nextLines, nextLines, joinLines_singleton,
      joinLines_singleton]
    simp only [List.append_assoc, List.cons_append]

theorem mem_joinLines {c : Char} {ls : List (List Char)} (h : c ∈ joinLines ls) :
    c = '\n' ∨ ∃ l ∈ ls, c ∈ l := by
  induction ls with
  | nil => simp [joinLines] at h
  | cons l ls ih =>
    rw [joinLines_cons, List.mem_append] at h
    rcases h with h | h
    · exact .inr ⟨l, List.mem_cons_self, h⟩
    · cases ls with
      | nil => cases h
      | cons m ls =>
        rcases List.mem_cons.mp h with rfl | h
        · exact .inl rfl
        · exact (ih h).imp_right fun ⟨k, hk, hc⟩ => ⟨k, List.mem_cons_of_mem _ hk, hc⟩

theorem lines_ne_nil (cs : List Char) : lines cs ≠ [] := List.splitOn_ne_nil _ _

theorem newline_not_mem_of_mem_lines (cs : List Char) : ∀ l ∈ lines cs, '\n' ∉ l :=
  fun _ => not_mem_of_mem_splitOn

/-- Lines put together are cut into the same lines again. -/
theorem lines_joinLines {ls : List (List Char)} (hne : ls ≠ []) (hn : ∀ l ∈ ls, '\n' ∉ l) :
    lines (joinLines ls) = ls :=
  List.splitOn_intercalate '\n' hn hne

/-- Lines end in a line break if and only if an empty line comes last, after other lines. -/
theorem getLast?_joinLines_eq_newline_iff {ls : List (List Char)} (hn : ∀ l ∈ ls, '\n' ∉ l) :
    (joinLines ls).getLast? = some '\n' ↔ ∃ init, init ≠ [] ∧ ls = init ++ [[]] := by
  constructor
  · intro h
    rcases List.eq_nil_or_concat ls with rfl | ⟨init, l, rfl⟩
    · simp [joinLines] at h
    rw [List.concat_eq_append] at h hn ⊢
    have hl : l.getLast? ≠ some '\n' := fun hlast =>
      hn l (by simp) (List.mem_of_mem_getLast? hlast)
    by_cases hinit : init = []
    · rw [hinit, List.nil_append, joinLines_singleton] at h
      exact absurd h hl
    · refine ⟨init, hinit, ?_⟩
      rw [joinLines_append hinit, nextLines, joinLines_singleton,
        List.getLast?_append_of_ne_nil _ (List.cons_ne_nil _ _)] at h
      cases l with
      | nil => rfl
      | cons c l =>
        rw [List.getLast?_cons_cons] at h
        exact absurd h hl
  · rintro ⟨init, hinit, rfl⟩
    rw [joinLines_append hinit, nextLines, joinLines_singleton]
    simp

end Text

end Flowchart
