import Flowchart.Proofs.Literal.Parts
import Flowchart.Proofs.Statement

/-!
# What an output call prints

`outputText?_decoded_iff`: the first string literal is decoded escape by escape if no escaped
backslash in it is misread and no escaped quote is at the end of it in the place of a closing one, and
in no other case.

* `shown`: what one part of a literal prints. `decoded`: what all of them print, on one line.
* `cleaned`: what the replacements leave of a text. `cleaned_cons` compares one part of a literal with
  what it prints; where the two differ a backslash is missing (`count_cleaned_lt`).
* `Misread`: what may come after an escaped backslash that the replacements take for the backslash of
  another escape.
-/

namespace Flowchart

namespace Text

variable {a b x : Char} {r t : List Char}

/-! ## Replacements -/

theorem replacePair_cons_pos (a b : Char) (r t : List Char) :
    replacePair a b r (a :: b :: t) = r ++ replacePair a b r t := by
  rw [replacePair, if_pos ⟨rfl, rfl⟩]

theorem replacePair_cons_neg {c : Char} (h : c = a → t.head? ≠ some b) :
    replacePair a b r (c :: t) = c :: replacePair a b r t := by
  cases t with
  | nil => rfl
  | cons d t =>
    rw [replacePair, if_neg]
    rintro ⟨hc, rfl⟩
    exact h hc rfl

/-- A character that is neither replaced nor put in is kept. -/
theorem count_replacePair (ha : x ≠ a) (hb : x ≠ b) (hr : x ∉ r) :
    (replacePair a b r t).count x = t.count x := by
  fun_induction replacePair a b r t with
  | case1 | case2 => rfl
  | case3 c d t h ih =>
    obtain ⟨rfl, rfl⟩ := h
    rw [List.count_append, List.count_eq_zero_of_not_mem hr, ih, List.count_cons_of_ne ha.symm,
      List.count_cons_of_ne hb.symm, Nat.zero_add]
  | case4 c d t _ ih => rw [List.count_cons, ih, ← List.count_cons]

/-- One more `a` in front is one more at most. -/
theorem count_replacePair_cons_le (hab : a ≠ b) (hr : a ∉ r) (t : List Char) :
    (replacePair a b r (a :: t)).count a ≤ (replacePair a b r t).count a + 1 := by
  by_cases h : t.head? = some b
  · obtain ⟨t, rfl⟩ := List.head?_eq_some_iff.mp h
    rw [replacePair_cons_pos, replacePair_cons_neg fun hba => absurd hba.symm hab,
      List.count_append, List.count_eq_zero_of_not_mem hr, List.count_cons_of_ne hab.symm]
    omega
  · rw [replacePair_cons_neg fun _ => h, List.count_cons_self]

theorem count_trim (hx : isBlank x = false) (t : List Char) : (trim t).count x = t.count x := by
  have hblank {w : List Char} (hw : isBlankText w = true) : w.count x = 0 :=
    List.count_eq_zero_of_not_mem fun hmem => by simp [isBlankText_iff.mp hw x hmem] at hx
  obtain ⟨u, v, hu, hv, ht⟩ := exists_eq_append_trim t
  conv => rhs; rw [ht]
  rw [List.count_append, List.count_append, hblank hu, hblank hv, Nat.zero_add, Nat.add_zero]

end Text

namespace Statement

open Literal (Part inside inside_cons inside_append Reads)
open Text (replacePair replacePair_cons_pos replacePair_cons_neg trim)

/-! ## What escapes print -/

/-- What a part of a literal prints: nothing for a line break, a space for a tab, and all else as it
is written. -/
def shown : Part → List Char
  | .escape 'n' => []
  | .escape 't' => [' ']
  | p => p.text

/-- What the parts of a literal print, without white space at the ends. -/
def decoded (parts : List Part) : List Char := trim (parts.flatMap shown)

/-- What may come after an escaped backslash for it to be taken for the backslash of another escape:
an `n`, or a `t`, with nothing but line breaks before it. -/
def Misread (parts : List Part) : Prop :=
  parts.head? = some (.plain 'n') ∨
    (parts.dropWhile (· = .escape 'n')).head? = some (.plain 't')

instance (parts : List Part) : Decidable (Misread parts) := inferInstanceAs (Decidable (_ ∨ _))

/-- No escaped backslash is misread. -/
def Faithful (parts : List Part) : Prop :=
  ∀ front rest, parts = front ++ .escape '\\' :: rest → ¬ Misread rest

section Parts

variable {p : Part} {parts : List Part}

theorem faithful_nil : Faithful [] := fun front rest h => by simp at h

theorem faithful_cons :
    Faithful (p :: parts) ↔ (p = .escape '\\' → ¬ Misread parts) ∧ Faithful parts := by
  constructor
  · intro h
    refine ⟨fun hp => h [] parts (by rw [hp]; rfl), fun front rest heq => ?_⟩
    exact h (p :: front) rest (by rw [heq]; rfl)
  · rintro ⟨hp, h⟩ front rest heq
    rcases List.cons_eq_append_iff.mp heq with ⟨rfl, hcons⟩ | ⟨front, rfl, htail⟩
    · obtain ⟨rfl, rfl⟩ := List.cons.inj hcons
      exact hp rfl
    · exact h front rest htail

instance decidableFaithful : (parts : List Part) → Decidable (Faithful parts)
  | [] => .isTrue faithful_nil
  | _ :: parts =>
    have := decidableFaithful parts
    decidable_of_iff _ faithful_cons.symm

end Parts

/-! ## Replacing escapes -/

/-- The text with its escapes replaced. -/
def cleaned (t : List Char) : List Char :=
  replacePair '\\' 't' [' '] (replacePair '\\' 'n' [] t)

section Cleaned

variable {c d : Char} {t : List Char} {p : Part} {parts : List Part}

theorem shown_escape (hn : d ≠ 'n') (ht : d ≠ 't') : shown (.escape d) = ['\\', d] := by
  unfold shown
  split <;> simp_all [Part.text]

theorem cleaned_plain (hc : c ≠ '\\') (t : List Char) : cleaned (c :: t) = c :: cleaned t := by
  have hnot {a : Char} {w : List Char} (h : c = '\\') : w.head? ≠ some a := absurd h hc
  rw [cleaned, replacePair_cons_neg hnot, replacePair_cons_neg hnot, cleaned]

theorem cleaned_escape (hb : d ≠ '\\') (t : List Char) :
    cleaned ('\\' :: d :: t) = shown (.escape d) ++ cleaned t := by
  have hd {a : Char} {w : List Char} (h : d = '\\') : w.head? ≠ some a := absurd h hb
  by_cases hn : d = 'n'
  · rw [hn, cleaned, replacePair_cons_pos]
    rfl
  have hneg : replacePair '\\' 'n' [] ('\\' :: d :: t) =
      '\\' :: d :: replacePair '\\' 'n' [] t := by
    rw [replacePair_cons_neg (by simp [hn]), replacePair_cons_neg hd]
  by_cases ht : d = 't'
  · rw [cleaned, hneg, ht, replacePair_cons_pos]
    rfl
  · rw [cleaned, hneg, replacePair_cons_neg (by simp [ht]), replacePair_cons_neg hd,
      shown_escape hn ht]
    rfl

/-- Two backslashes before what is neither an `n` nor, with escapes for line breaks left out, a
`t`. -/
theorem cleaned_backslash (hn : t.head? ≠ some 'n')
    (ht : (replacePair '\\' 'n' [] t).head? ≠ some 't') :
    cleaned ('\\' :: '\\' :: t) = '\\' :: '\\' :: cleaned t := by
  rw [cleaned, replacePair_cons_neg (by simp), replacePair_cons_neg fun _ => hn,
    replacePair_cons_neg (by simp), replacePair_cons_neg fun _ => ht, cleaned]

/-- Otherwise a backslash is missing. -/
theorem count_cleaned_backslash_lt
    (h : t.head? = some 'n' ∨ (replacePair '\\' 'n' [] t).head? = some 't') :
    (cleaned ('\\' :: '\\' :: t)).count '\\' < 2 + (cleaned t).count '\\' := by
  by_cases hn : t.head? = some 'n'
  · obtain ⟨t, rfl⟩ := List.head?_eq_some_iff.mp hn
    have hle := Text.count_replacePair_cons_le (a := '\\') (b := 't') (r := [' ']) (by decide)
      (by decide) (replacePair '\\' 'n' [] t)
    have hboth : cleaned ('\\' :: '\\' :: 'n' :: t) =
        replacePair '\\' 't' [' '] ('\\' :: replacePair '\\' 'n' [] t) := by
      rw [cleaned, replacePair_cons_neg (by simp), replacePair_cons_pos]
      rfl
    rw [hboth, cleaned_plain (by decide), List.count_cons_of_ne (by decide), cleaned]
    omega
  · obtain ⟨w, hw⟩ := List.head?_eq_some_iff.mp (h.resolve_left hn)
    have htab : cleaned t = 't' :: replacePair '\\' 't' [' '] w := by
      rw [cleaned, hw, replacePair_cons_neg (by simp)]
    have hboth : cleaned ('\\' :: '\\' :: t) = '\\' :: ' ' :: replacePair '\\' 't' [' '] w := by
      rw [cleaned, replacePair_cons_neg (by simp), replacePair_cons_neg fun _ => hn, hw,
        replacePair_cons_neg (by simp), replacePair_cons_pos]
      rfl
    rw [htab, hboth, List.count_cons_self, List.count_cons_of_ne (by decide),
      List.count_cons_of_ne (by decide)]
    omega

/-! ## Replacing escapes part by part -/

theorem head?_inside (hc : '\\' ≠ c) :
    (inside parts).head? = some c ↔ parts.head? = some (.plain c) := by
  cases parts with
  | nil => simp
  | cons p parts => cases p <;> simp [inside_cons, Part.text, hc]

theorem head?_replacePair_inside (hplain : ∀ p ∈ parts, p.Plain '"') :
    (replacePair '\\' 'n' [] (inside parts)).head? = some 't' ↔
      (parts.dropWhile (· = .escape 'n')).head? = some (.plain 't') := by
  induction parts with
  | nil => simp [replacePair]
  | cons p parts ih =>
    obtain ⟨hp, hparts⟩ := List.forall_mem_cons.mp hplain
    cases p with
    | plain c =>
      rw [inside_cons, Part.text, List.singleton_append,
        replacePair_cons_neg fun h => absurd h (Part.plain_plain.mp hp).2]
      simp
    | escape d =>
      rw [inside_cons, Part.text, List.cons_append, List.singleton_append]
      by_cases hn : d = 'n'
      · rw [hn, replacePair_cons_pos, List.nil_append, ih hparts]
        simp
      · rw [replacePair_cons_neg (by simp [hn])]
        simp [hn]

theorem misread_iff (hplain : ∀ p ∈ parts, p.Plain '"') : Misread parts ↔
    (inside parts).head? = some 'n' ∨
      (replacePair '\\' 'n' [] (inside parts)).head? = some 't' := by
  rw [head?_inside (by decide), head?_replacePair_inside hplain, Misread]

/-- A part that is not misread is replaced by what it prints. -/
theorem cleaned_cons (hplain : ∀ q ∈ p :: parts, q.Plain '"') (h : p = .escape '\\' → ¬ Misread parts) :
    cleaned (inside (p :: parts)) = shown p ++ cleaned (inside parts) := by
  obtain ⟨hp, hparts⟩ := List.forall_mem_cons.mp hplain
  rw [inside_cons]
  cases p with
  | plain c => exact cleaned_plain (Part.plain_plain.mp hp).2 _
  | escape d =>
    by_cases hb : d = '\\'
    · obtain ⟨hn, ht⟩ := not_or.mp ((misread_iff hparts).not.mp (h (by rw [hb])))
      rw [hb]
      exact cleaned_backslash hn ht
    · exact cleaned_escape hb _

/-- Where no escaped backslash is misread, each part is replaced by what it prints. -/
theorem cleaned_of_faithful (hplain : ∀ p ∈ parts, p.Plain '"') (h : Faithful parts) :
    cleaned (inside parts) = parts.flatMap shown := by
  induction parts with
  | nil => rfl
  | cons p parts ih =>
    obtain ⟨hp, hfaithful⟩ := faithful_cons.mp h
    rw [cleaned_cons hplain hp, ih (List.forall_mem_cons.mp hplain).2 hfaithful, List.flatMap_cons]

/-- No backslash is left that the parts do not print, and one is missing where an escaped backslash
is misread. -/
theorem count_cleaned (hplain : ∀ p ∈ parts, p.Plain '"') :
    (cleaned (inside parts)).count '\\' ≤ (parts.flatMap shown).count '\\' ∧
    (¬ Faithful parts →
      (cleaned (inside parts)).count '\\' < (parts.flatMap shown).count '\\') := by
  induction parts with
  | nil => exact ⟨Nat.le_refl _, fun h => absurd faithful_nil h⟩
  | cons p parts ih =>
    have hparts := (List.forall_mem_cons.mp hplain).2
    obtain ⟨hle, hlt⟩ := ih hparts
    rw [List.flatMap_cons, List.count_append, faithful_cons]
    by_cases hp : p = .escape '\\' → ¬ Misread parts
    · rw [cleaned_cons hplain hp, List.count_append]
      refine ⟨Nat.add_le_add_left hle _, fun h => Nat.add_lt_add_left (hlt ?_) _⟩
      exact fun hfaithful => h ⟨hp, hfaithful⟩
    · obtain ⟨rfl, hmisread⟩ := Classical.not_imp.mp hp
      have hstep := count_cleaned_backslash_lt ((misread_iff hparts).mp (not_not.mp hmisread))
      have htwo : (shown (.escape '\\')).count '\\' = 2 := rfl
      have hinside : inside (.escape '\\' :: parts) = '\\' :: '\\' :: inside parts := rfl
      rw [hinside, htwo]
      exact ⟨by omega, fun _ => by omega⟩

end Cleaned

/-! ## The closing quote -/

section Stripped

variable {t : List Char} {parts : List Part}

/-- The text without a quote at its end. -/
def stripped (t : List Char) : List Char := if t.getLast? = some '"' then t.dropLast else t

theorem printed_cons (t : List Char) : printed ('"' :: t) = trim (cleaned (stripped t)) := rfl

theorem stripped_quote (t : List Char) : stripped (t ++ ['"']) = t := by
  rw [stripped, if_pos (by simp), List.dropLast_concat]

/-- The last character of parts is a quote only if it is escaped. -/
theorem getLast?_inside (hplain : ∀ p ∈ parts, p.Plain '"') :
    (inside parts).getLast? = some '"' ↔ parts.getLast? = some (.escape '"') := by
  rcases List.eq_nil_or_concat parts with rfl | ⟨ps, p, rfl⟩
  · simp
  · rw [List.concat_eq_append] at hplain ⊢
    cases p with
    | plain c =>
      have hc : c ≠ '"' := (Part.plain_plain.mp (hplain (.plain c) (by simp))).1
      simp [inside_append, inside_cons, Part.text, hc]
    | escape c => simp [inside_append, inside_cons, Part.text]

/-- Every quote of the parts is printed. -/
theorem count_quote_shown (parts : List Part) :
    (parts.flatMap shown).count '"' = (inside parts).count '"' := by
  induction parts with
  | nil => rfl
  | cons p parts ih =>
    have hp : (shown p).count '"' = p.text.count '"' := by
      unfold shown
      split <;> rfl
    rw [List.flatMap_cons, inside_cons, List.count_append, List.count_append, hp, ih]

theorem count_quote_cleaned (t : List Char) : (cleaned t).count '"' = t.count '"' := by
  rw [cleaned, Text.count_replacePair (by decide) (by decide) (by decide),
    Text.count_replacePair (by decide) (by decide) (by decide)]

/-- An escaped quote at the end that is taken for the closing one is missing. -/
theorem trim_cleaned_stripped_ne (hlast : parts.getLast? = some (.escape '"')) :
    trim (cleaned (stripped (inside parts))) ≠ decoded parts := by
  obtain ⟨ps, rfl⟩ := List.getLast?_eq_some_iff.mp hlast
  intro heq
  have hinside : inside (ps ++ [.escape '"']) = inside ps ++ ['\\'] ++ ['"'] := by
    rw [inside_append, List.append_assoc]
    rfl
  have hcount := congrArg (List.count '"') heq
  rw [decoded, Text.count_trim (by decide), Text.count_trim (by decide), count_quote_shown,
    count_quote_cleaned, hinside, stripped_quote, List.count_append] at hcount
  simp at hcount

/-- Where the parts are a whole literal, what it prints are they, up to misread backslashes. -/
theorem trim_cleaned_iff (hplain : ∀ p ∈ parts, p.Plain '"') :
    trim (cleaned (inside parts)) = decoded parts ↔ Faithful parts := by
  constructor
  · intro heq
    by_contra hnot
    have hcount := congrArg (List.count '\\') heq
    rw [decoded, Text.count_trim (by decide), Text.count_trim (by decide)] at hcount
    exact absurd hcount (Nat.ne_of_lt ((count_cleaned hplain).2 hnot))
  · intro h
    rw [cleaned_of_faithful hplain h, decoded]

end Stripped

/-! ## The first string literal -/

theorem outputText?_of_first {text literal : List Char} {before after : List Lexeme}
    (h : lexemes text = before ++ ⟨.string, literal⟩ :: after)
    (hbefore : ∀ l ∈ before, l.kind ≠ .string) : outputText? text = some (printed literal) := by
  have hfind : (lexemes text).find? (·.kind = .string) = some ⟨.string, literal⟩ :=
    List.find?_eq_some_iff_append.mpr ⟨by simp, before, after, h, fun l hl => by
      simp [hbefore l hl]⟩
  rw [outputText?, hfind]
  rfl

/-- **Output.** The first string literal of a text can be read as parts, and what is shown of an
output call is what these parts print if and only if no escaped backslash among them is misread and,
where the literal has no closing quote, its last part is not an escaped quote. -/
theorem outputText?_decoded_iff {text literal : List Char} {before after : List Lexeme}
    (h : lexemes text = before ++ ⟨.string, literal⟩ :: after)
    (hbefore : ∀ l ∈ before, l.kind ≠ .string) :
    (∃ parts closed, Reads '"' literal parts closed) ∧
    ∀ parts closed, Reads '"' literal parts closed →
      (outputText? text = some (decoded parts) ↔
        Faithful parts ∧ (closed = false → parts.getLast? ≠ some (.escape '"'))) := by
  refine ⟨?_, fun parts closed hreads => ?_⟩
  · exact exists_reads_of_mem (l := ⟨.string, literal⟩) (t := text) (by simp [h]) rfl
  · obtain ⟨rfl, hplain⟩ := hreads
    rw [outputText?_of_first h hbefore, Option.some_inj, printed_cons]
    cases closed with
    | true =>
      rw [if_pos rfl, stripped_quote, trim_cleaned_iff hplain]
      simp
    | false =>
      rw [if_neg (by simp), List.append_nil]
      by_cases hlast : parts.getLast? = some (.escape '"')
      · simp [trim_cleaned_stripped_ne hlast, hlast]
      · have hstripped : stripped (inside parts) = inside parts :=
          if_neg ((getLast?_inside hplain).not.mpr hlast)
        rw [hstripped, trim_cleaned_iff hplain]
        simp [hlast]

/-- A line break and escaped quotes in a closed literal. -/
theorem outputText?_greeting :
    let text := "printf(\"say \\\"hi\\\"\\n\");".toList
    let literal := "\"say \\\"hi\\\"\\n\"".toList
    let parts := "say ".toList.map Part.plain ++ [.escape '"', .plain 'h', .plain 'i', .escape '"',
      .escape 'n']
    lexemes text = lexemes "printf(".toList ++ ⟨.string, literal⟩ :: lexemes ");".toList ∧
    (∀ l ∈ lexemes "printf(".toList, l.kind ≠ .string) ∧
    Reads '"' literal parts true ∧ Faithful parts ∧
    outputText? text = some "say \\\"hi\\\"".toList := by
  intro text literal parts
  have hlex : lexemes text = lexemes "printf(".toList ++ ⟨.string, literal⟩ :: lexemes ");".toList := by
    decide +kernel
  have hbefore : ∀ l ∈ lexemes "printf(".toList, l.kind ≠ .string := by decide +kernel
  have hreads : Reads '"' literal parts true := by decide
  have hfaithful : Faithful parts := by decide
  have hdecoded : decoded parts = "say \\\"hi\\\"".toList := by decide
  refine ⟨hlex, hbefore, hreads, hfaithful, ?_⟩
  rw [← hdecoded]
  exact ((outputText?_decoded_iff hlex hbefore).2 parts true hreads).mpr ⟨hfaithful, by simp⟩

/-- An escaped backslash before an `n` loses the `n` and one of its backslashes, and an escaped quote
at the end of a literal that is not closed becomes a lone backslash. -/
theorem outputText?_misread :
    let backslash := "printf(\"a\\\\n\");".toList
    let quote := "printf(\"a\\\"".toList
    ((lexemes backslash).find? (·.kind = .string) = some ⟨.string, "\"a\\\\n\"".toList⟩ ∧
      Reads '"' "\"a\\\\n\"".toList [.plain 'a', .escape '\\', .plain 'n'] true ∧
      decoded [.plain 'a', .escape '\\', .plain 'n'] = "a\\\\n".toList ∧
      outputText? backslash = some "a\\".toList) ∧
    (lexemes quote).find? (·.kind = .string) = some ⟨.string, "\"a\\\"".toList⟩ ∧
      Reads '"' "\"a\\\"".toList [.plain 'a', .escape '"'] false ∧
      decoded [.plain 'a', .escape '"'] = "a\\\"".toList ∧
      outputText? quote = some "a\\".toList := by
  decide +kernel

end Statement

end Flowchart
