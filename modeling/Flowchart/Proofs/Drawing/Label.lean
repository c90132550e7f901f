import Flowchart.Drawing
import Flowchart.Proofs.Text

/-!
# The lines of a label

`wrap_optimal`: the lines of a label have its words in order, no line of more than one word is longer
than the limit, and the words cannot be broken into fewer lines like that.

* `joinWords_append`, `words_joinWords`: what stands on a line, as text and as words.
* `Breaking`: a way to break words into lines. `breaking_fillLines`: filling line after line is one.
* `length_fillLines_append`: a line that has begun with more words makes up for at most one line.
  `length_fillLines_le` compares with every other way to break the words.
-/

namespace Flowchart

open Text (words)

/-! ## Words on a line -/

section JoinWords

variable {a b : List (List Char)}

theorem joinWords_singleton (word : List Char) : joinWords [word] = word :=
  List.intercalate_singleton

theorem joinWords_cons (word : List Char) (hb : b ≠ []) :
    joinWords (word :: b) = word ++ ' ' :: joinWords b := by
  cases b with
  | nil => exact absurd rfl hb
  | cons w b => rw [joinWords, List.intercalate_cons_cons, joinWords, List.append_assoc,
      List.singleton_append]

theorem joinWords_append (ha : a ≠ []) (hb : b ≠ []) :
    joinWords (a ++ b) = joinWords a ++ ' ' :: joinWords b := by
  induction a with
  | nil => exact absurd rfl ha
  | cons w a ih =>
    rw [List.cons_append, joinWords_cons w (List.append_ne_nil_of_right_ne_nil a hb)]
    cases a with
    | nil => rw [List.nil_append, joinWords_singleton]
    | cons v a =>
      rw [ih (List.cons_ne_nil v a), joinWords_cons w (List.cons_ne_nil v a), List.append_assoc,
        List.cons_append]

/-- The end of a line is no longer than the line. -/
theorem length_joinWords_le_append_left (a : List (List Char)) (hb : b ≠ []) :
    (joinWords b).length ≤ (joinWords (a ++ b)).length := by
  rcases eq_or_ne a [] with rfl | ha
  · exact Nat.le_refl _
  · rw [joinWords_append ha hb, List.length_append, List.length_cons]
    omega

/-- The beginning of a line is no longer than the line. -/
theorem length_joinWords_le_append_right (ha : a ≠ []) (b : List (List Char)) :
    (joinWords a).length ≤ (joinWords (a ++ b)).length := by
  rcases eq_or_ne b [] with rfl | hb
  · rw [List.append_nil]
  · rw [joinWords_append ha hb, List.length_append]
    omega

/-- Lines with a space between neighbours are one long line. -/
theorem joinWords_map_joinWords {division : List (List (List Char))} (h : [] ∉ division) :
    joinWords (division.map joinWords) = joinWords division.flatten := by
  induction division with
  | nil => rfl
  | cons line division ih =>
    obtain ⟨hline, hdivision⟩ := not_or.mp (List.mem_cons.not.mp h)
    cases division with
    | nil => simp [joinWords_singleton]
    | cons line' division =>
      have hflatten : (line' :: division).flatten ≠ [] := by
        simp only [ne_eq, List.flatten_eq_nil_iff]
        exact fun hnil => hdivision (hnil line' List.mem_cons_self ▸ List.mem_cons_self)
      rw [List.map_cons, joinWords_cons _ (by simp), ih hdivision,
        ← joinWords_append (Ne.symm hline) hflatten]
      rfl

/-- The words of a line are those that it was put together from. -/
theorem words_joinWords {line : List (List Char)}
    (h : ∀ word ∈ line, word ≠ [] ∧ ∀ c ∈ word, Text.isBlank c = false) :
    words (joinWords line) = line := by
  induction line with
  | nil => rfl
  | cons word line ih =>
    obtain ⟨⟨hne, hword⟩, hline⟩ := List.forall_mem_cons.mp h
    have hsingle : words word = [word] := Text.words_of_not_blank hne hword
    cases line with
    | nil => rw [joinWords_singleton, hsingle]
    | cons w line =>
      rw [joinWords_cons word (List.cons_ne_nil w line), Text.words_append_blank (by decide), hsingle,
        ih hline, List.singleton_append]

end JoinWords

/-! ## Filling lines -/

/-- The line has at most `limit` characters, unless it is a single word. -/
def Fits (limit : Nat) (line : List (List Char)) : Prop :=
  1 < line.length → (joinWords line).length ≤ limit

instance (limit : Nat) (line : List (List Char)) : Decidable (Fits limit line) :=
  inferInstanceAs (Decidable (_ → _))

/-- A way to break a text into lines, at least one: all words, in order, on lines that fit. -/
structure Breaking (limit : Nat) (text : List (List Char)) (division : List (List (List Char))) :
    Prop where
  ne_nil : division ≠ []
  flatten : division.flatten = text
  fits : ∀ line ∈ division, Fits limit line

section FillLines

variable {limit : Nat} {line : List (List Char)} {word : List Char}

theorem fits_singleton (limit : Nat) (word : List Char) : Fits limit [word] :=
  fun h => absurd h (Nat.lt_irrefl 1)

theorem fillLines_cons_of_le (h : (joinWords (line ++ [word])).length ≤ limit)
    (text : List (List Char)) :
    fillLines limit line (word :: text) = fillLines limit (line ++ [word]) text :=
  if_pos h

theorem fillLines_cons_of_lt (h : limit < (joinWords (line ++ [word])).length)
    (text : List (List Char)) :
    fillLines limit line (word :: text) = line :: fillLines limit [word] text :=
  if_neg (Nat.not_le_of_lt h)

/-- Filling line after line breaks the words, and leaves no line empty. -/
theorem breaking_fillLines (hne : line ≠ []) (hfits : Fits limit line) (text : List (List Char)) :
    Breaking limit (line ++ text) (fillLines limit line text) ∧
      [] ∉ fillLines limit line text := by
  induction text generalizing line with
  | nil =>
    refine ⟨⟨List.cons_ne_nil _ _, by simp [fillLines], ?_⟩, ?_⟩
    · exact List.forall_mem_singleton.mpr hfits
    · exact fun h => hne (List.mem_singleton.mp h).symm
  | cons word text ih =>
    rcases Nat.lt_or_ge limit (joinWords (line ++ [word])).length with h | h
    · rw [fillLines_cons_of_lt h]
      obtain ⟨⟨-, hflatten, hall⟩, hnot⟩ := ih (List.cons_ne_nil word []) (fits_singleton limit word)
      refine ⟨⟨List.cons_ne_nil _ _, ?_, List.forall_mem_cons.mpr ⟨hfits, hall⟩⟩, ?_⟩
      · rw [List.flatten_cons, hflatten, List.singleton_append]
      · exact fun hmem => (List.mem_cons.mp hmem).elim (fun heq => hne heq.symm) hnot
    · rw [fillLines_cons_of_le h, List.append_cons]
      exact ih (by simp) fun _ => h

/-- A line that has begun with more words makes up for one line at most, and never for less than
nothing. -/
theorem length_fillLines_append {b : List (List Char)} (hb : b ≠ []) (a text : List (List Char)) :
    (fillLines limit b text).length ≤ (fillLines limit (a ++ b) text).length ∧
      (fillLines limit (a ++ b) text).length ≤ (fillLines limit b text).length + 1 := by
  induction text generalizing a b with
  | nil => exact ⟨Nat.le_refl _, Nat.le_succ _⟩
  | cons word text ih =>
    have hle : (joinWords (b ++ [word])).length ≤ (joinWords (a ++ b ++ [word])).length := by
      rw [List.append_assoc]
      exact length_joinWords_le_append_left a (by simp)
    rcases Nat.lt_or_ge limit (joinWords (a ++ b ++ [word])).length with hab | hab
    · rw [fillLines_cons_of_lt hab, List.length_cons]
      rcases Nat.lt_or_ge limit (joinWords (b ++ [word])).length with hshort | hshort
      · rw [fillLines_cons_of_lt hshort, List.length_cons]
        exact ⟨Nat.le_refl _, Nat.le_succ _⟩
      · -- Only the longer line breaks here, so the word begins a line there and ends one here.
        rw [fillLines_cons_of_le hshort]
        obtain ⟨hlower, hupper⟩ := ih (List.cons_ne_nil word []) b
        omega
    · rw [fillLines_cons_of_le hab, fillLines_cons_of_le (Nat.le_trans hle hab), List.append_assoc]
      exact ih (by simp) a

/-- A break before a word costs one line at most. -/
theorem length_fillLines_cons_le (limit : Nat) (line : List (List Char)) (word : List Char)
    (text : List (List Char)) :
    (fillLines limit line (word :: text)).length ≤ (fillLines limit [word] text).length + 1 := by
  rcases Nat.lt_or_ge limit (joinWords (line ++ [word])).length with h | h
  · rw [fillLines_cons_of_lt h, List.length_cons]
  · rw [fillLines_cons_of_le h]
    exact (length_fillLines_append (List.cons_ne_nil word []) line text).2

/-- A line takes all words that fit. -/
theorem fillLines_append {a b : List (List Char)} (ha : a ≠ [])
    (h : (joinWords (a ++ b)).length ≤ limit) (text : List (List Char)) :
    fillLines limit a (b ++ text) = fillLines limit (a ++ b) text := by
  induction b generalizing a with
  | nil => simp
  | cons word b ih =>
    rw [List.append_cons] at h ⊢
    have hword : (joinWords (a ++ [word])).length ≤ limit :=
      Nat.le_trans (length_joinWords_le_append_right (by simp) b) h
    rw [List.cons_append, fillLines_cons_of_le hword, ih (by simp) h]

/-- No way to break the words has fewer lines. -/
theorem length_fillLines_le {text : List (List Char)} {division : List (List (List Char))}
    (hflatten : division.flatten = word :: text) (hfits : ∀ line ∈ division, Fits limit line) :
    (fillLines limit [word] text).length ≤ division.length := by
  induction division generalizing word text with
  | nil => cases hflatten
  | cons line division ih =>
    obtain ⟨hline, hdivision⟩ := List.forall_mem_cons.mp hfits
    cases line with
    | nil =>
      exact Nat.le_succ_of_le (ih hflatten hdivision)
    | cons w line =>
      -- Filling takes at least the words of the first line, and a break after them costs one line.
      rw [List.flatten_cons, List.cons_append] at hflatten
      obtain ⟨rfl, rfl⟩ := List.cons.inj hflatten
      have hfirst : fillLines limit [w] (line ++ division.flatten) =
          fillLines limit (w :: line) division.flatten := by
        cases line with
        | nil => rfl
        | cons v line => exact fillLines_append (List.cons_ne_nil w []) (hline (by simp)) _
      rw [hfirst, List.length_cons]
      cases hrest : division.flatten with
      | nil => exact Nat.succ_le_succ (Nat.zero_le _)
      | cons v rest =>
        have hbreak := length_fillLines_cons_le limit (w :: line) v rest
        have hless := ih hrest hdivision
        omega

end FillLines

/-! ## The lines of a label -/

/-- The lines of a label are a way to break its words. -/
theorem exists_breaking_wrap (limit : Nat) (label : List Char) :
    ∃ division, Breaking limit (words label) division ∧ wrap limit label = division.map joinWords ∧
      joinWords (wrap limit label) = joinWords (words label) := by
  unfold wrap
  cases words label with
  | nil => exact ⟨[[]], ⟨by simp, rfl, by simp [Fits]⟩, rfl, rfl⟩
  | cons word text =>
    obtain ⟨hbreaking, hnot⟩ :=
      breaking_fillLines (List.cons_ne_nil word []) (fits_singleton limit word) text
    exact ⟨_, hbreaking, rfl, by rw [joinWords_map_joinWords hnot, hbreaking.flatten]; rfl⟩

theorem length_wrap_le {limit : Nat} {label : List Char} {division : List (List (List Char))}
    (h : Breaking limit (words label) division) : (wrap limit label).length ≤ division.length := by
  obtain ⟨hne, hflatten, hfits⟩ := h
  unfold wrap
  cases hwords : words label with
  | nil => exact List.length_pos_iff.mpr hne
  | cons word text =>
    rw [List.length_map]
    exact length_fillLines_le (hflatten.trans hwords) hfits

/-- **Word wrap.** The lines of a label, put together with single spaces, are its words with single
spaces, and each word stands on one of the lines, in order. A line of more than one word has at most
`limit` characters. Every way to break the words into lines like that has at least as many lines. A
label without words has one empty line. -/
theorem wrap_optimal (limit : Nat) (label : List Char) :
    joinWords (wrap limit label) = joinWords (words label) ∧
    (wrap limit label).flatMap words = words label ∧
    (∀ line ∈ wrap limit label, 1 < (words line).length → line.length ≤ limit) ∧
    (∀ division, Breaking limit (words label) division →
      (wrap limit label).length ≤ division.length) ∧
    (words label = [] → wrap limit label = [[]]) := by
  obtain ⟨division, ⟨-, hflatten, hfits⟩, hwrap, hjoin⟩ := exists_breaking_wrap limit label
  have hwords : ∀ line ∈ division, words (joinWords line) = line := fun line hline =>
    words_joinWords fun word hword =>
      Text.of_mem_words (hflatten ▸ List.mem_flatten_of_mem hline hword)
  refine ⟨hjoin, ?_, ?_, fun _ => length_wrap_le, fun h => by rw [wrap, h]⟩
  · rw [hwrap, List.flatMap_map, ← hflatten, ← List.flatMap_id]
    exact List.flatMap_congr hwords
  · rw [hwrap, List.forall_mem_map]
    intro line hline hlong
    rw [hwords line hline] at hlong
    exact hfits line hline hlong

example : wrap 10 "a long_identifier and b".toList =
    ["a".toList, "long_identifier".toList, "and b".toList] := by decide +kernel

end Flowchart
