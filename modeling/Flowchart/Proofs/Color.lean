import Flowchart.Text.Literal
import Flowchart.Proofs.Color.Syntax
import Flowchart.Proofs.Decimal

/-!
# Colours as identifiers

Every character of a colour's text but the hyphen gets through to its identifier as characters that
an identifier may have.

* `Written`: the other characters of a text get through, and there is a hyphen in it or not. One
  rule for each way of putting texts together.
* `parts`: the components that a colour is written with. `Hyphenated`: one of them is signed, or the
  name of the space has a hyphen. `written_render`: so has the text of such colours, and of no other.
* `id_word_iff`: the identifier of a colour begins with a letter, and it is made of letters, digits
  and underscores unless the colour is hyphenated.
-/

namespace Flowchart

/-- One of the components is a signed number. -/
def HasSigned (parts : List (Option Float32)) : Prop := ∃ part ∈ parts, ∃ a ∈ part, Signed a

instance (parts : List (Option Float32)) : Decidable (HasSigned parts) :=
  inferInstanceAs (Decidable (∃ _ ∈ _, _))

theorem not_hasSigned_nil : ¬ HasSigned [] := by
  rintro ⟨_, hpart, -⟩
  cases hpart

theorem hasSigned_cons {part : Option Float32} {parts : List (Option Float32)} :
    HasSigned (part :: parts) ↔ (∃ a ∈ part, Signed a) ∨ HasSigned parts := by
  simp only [HasSigned, List.mem_cons, exists_eq_or_imp]

theorem hasSigned_append {s t : List (Option Float32)} :
    HasSigned (s ++ t) ↔ HasSigned s ∨ HasSigned t := by
  simp only [HasSigned, List.mem_append, or_and_right, exists_or]

namespace Color

/-! ## Characters that get through -/

/-- What stands for the character are characters that an identifier may have. -/
def passes (c : Char) : Bool := (idPart c).all isWordChar

/-- The character is no hyphen, and passes. -/
def isPlain (c : Char) : Bool := c != '-' && passes c

theorem passes_of_isPlain {c : Char} (h : isPlain c = true) : passes c = true :=
  (Bool.and_eq_true_iff.mp h).2

theorem idPart_of_isWordChar {c : Char} (h : isWordChar c = true) : idPart c = [c] := by
  have hmarks : "#(), ;.%/".toList.all (!isWordChar ·) = true := by decide
  have hnot : c ∉ "#(), ;.%/".toList := fun hc => by simpa [h] using List.all_eq_true.mp hmarks c hc
  have hhash : c ≠ '#' := fun hc => hnot (hc ▸ List.mem_cons_self)
  have hother : ¬ "(), ;.%/".toList.contains c = true := fun hc =>
    hnot (List.mem_cons_of_mem _ (List.contains_iff_mem.mp hc))
  rw [idPart, if_neg hhash, if_neg hother]

theorem isPlain_of_isAlphanum {c : Char} (h : c.isAlphanum = true) : isPlain c = true := by
  have hword : isWordChar c = true := by rw [isWordChar, h, Bool.true_or]
  have hne : c ≠ '-' := by
    rintro rfl
    cases h
  simp [isPlain, passes, idPart_of_isWordChar hword, hword, hne]

/-- The hyphens of an identifier are those of the text. -/
theorem hyphen_mem_flatMap_idPart {t : List Char} : '-' ∈ t.flatMap idPart ↔ '-' ∈ t := by
  have hpart (c : Char) : '-' ∈ idPart c ↔ c = '-' := by
    by_cases hc : c = '-'
    · subst hc
      decide
    · refine iff_of_false ?_ hc
      unfold idPart
      split
      · decide
      · split
        · decide
        · exact fun h => hc (List.mem_singleton.mp h).symm
  simp only [List.mem_flatMap, hpart, exists_eq_right]

/-! ## Texts but for their hyphens -/

/-- All characters of the text but the hyphens pass, and `hyphen` says whether there are hyphens. -/
structure Written (t : String) (hyphen : Prop) : Prop where
  passes : ∀ c ∈ t.toList, c = '-' ∨ passes c = true
  hyphen_mem : '-' ∈ t.toList ↔ hyphen

namespace Written

variable {s t : String} {p q : Prop}

theorem plain (h : t.toList.all isPlain = true) : Written t False where
  passes c hc := .inr (passes_of_isPlain (List.all_eq_true.mp h c hc))
  hyphen_mem := iff_false_intro fun hmem => absurd (List.all_eq_true.mp h '-' hmem) (by decide)

theorem append (hs : Written s p) (ht : Written t q) : Written (s ++ t) (p ∨ q) where
  passes := by
    rw [String.toList_append]
    exact List.forall_mem_append.mpr ⟨hs.passes, ht.passes⟩
  hyphen_mem := by rw [String.toList_append, List.mem_append, hs.hyphen_mem, ht.hyphen_mem]

theorem congr (hs : Written s p) (h : p ↔ q) : Written s q := ⟨hs.passes, hs.hyphen_mem.trans h⟩

end Written

theorem written_renderNumber (a : Float32) : Written (renderNumber a) (Signed a) := by
  obtain ⟨t, heq, ht⟩ := exists_renderNumber_eq a
  have hplain : ∀ c ∈ t, isPlain c = true := by
    intro c hc
    rcases ht c hc with h | rfl
    · exact isPlain_of_isAlphanum h
    · decide
  have hpasses : ∀ c ∈ t, c = '-' ∨ passes c = true := fun c hc =>
    .inr (passes_of_isPlain (hplain c hc))
  by_cases hs : Signed a
  · rw [if_pos hs] at heq
    refine ⟨?_, ?_⟩ <;> rw [heq]
    · exact List.forall_mem_cons.mpr ⟨.inl rfl, hpasses⟩
    · exact iff_of_true List.mem_cons_self hs
  · rw [if_neg hs] at heq
    refine ⟨?_, ?_⟩ <;> rw [heq]
    · exact hpasses
    · exact iff_of_false (fun h => absurd (hplain '-' h) (by decide)) hs

/-! ## Components -/

/-- A component as it is written. -/
def partText (part : Option Float32) : String := part.elim "none" renderNumber

/-- A component times `scale`. -/
def scaled (scale : Float32) (part : Option Float32) : Option Float32 := part.map (· * scale)

theorem renderComponent_eq (scale : Float32) (part : Option Float32) :
    renderComponent scale part = partText (scaled scale part) := by
  cases part <;> rfl

theorem map_renderComponent (scale : Float32) (parts : List (Option Float32)) :
    parts.map (renderComponent scale) = (parts.map (scaled scale)).map partText := by
  rw [List.map_map]
  exact List.map_congr_left fun part _ => renderComponent_eq scale part

theorem written_partText (part : Option Float32) :
    Written (partText part) (∃ a ∈ part, Signed a) := by
  cases part with
  | none =>
    have hplain : Written "none" False := .plain (by decide)
    exact hplain.congr (by simp)
  | some a => exact (written_renderNumber a).congr (by simp)

theorem written_intercalate {separator : String} (hs : Written separator False)
    (parts : List (Option Float32)) :
    Written (separator.intercalate (parts.map partText)) (HasSigned parts) := by
  induction parts with
  | nil =>
    have hempty : Written "" False := .plain rfl
    rw [List.map_nil, String.intercalate_nil]
    exact hempty.congr (iff_of_false not_false not_hasSigned_nil)
  | cons part parts ih =>
    cases parts with
    | nil =>
      rw [List.map_cons, List.map_nil, String.intercalate_singleton]
      refine (written_partText part).congr ?_
      simp only [hasSigned_cons, not_hasSigned_nil, or_false]
    | cons next parts =>
      rw [List.map_cons, List.map_cons, String.intercalate_cons_cons, ← List.map_cons]
      refine (((written_partText part).append hs).append ih).congr ?_
      simp only [hasSigned_cons, or_false]

/-- The components, and alpha where it is less than one. -/
def withAlpha (parts : List (Option Float32)) (alpha : Option Float32) : List (Option Float32) :=
  if alpha.getD 0 < 1 then parts ++ [scaled 1 alpha] else parts

section Functions

variable (a b c alpha : Option Float32)

theorem written_renderRgb :
    Written (renderRgb a b c alpha) (HasSigned (withAlpha ([a, b, c].map (scaled 255)) alpha)) := by
  have hcomma : Written ", " False := .plain (by decide)
  have hclose : Written ")" False := .plain (by decide)
  unfold renderRgb withAlpha
  rw [map_renderComponent, renderComponent_eq]
  dsimp only
  split
  · have hopen : Written "rgba(" False := .plain (by decide)
    have hparts := written_intercalate hcomma ([a, b, c].map (scaled 255) ++ [scaled 1 alpha])
    rw [List.map_append, List.map_singleton] at hparts
    exact ((hopen.append hparts).append hclose).congr (by simp)
  · have hopen : Written "rgb(" False := .plain (by decide)
    have hparts := written_intercalate hcomma ([a, b, c].map (scaled 255))
    exact ((hopen.append hparts).append hclose).congr (by simp)

theorem written_renderSpaced {opening : String} {p : Prop} (ho : Written opening p) :
    Written (renderSpaced opening a b c alpha)
      (p ∨ HasSigned (withAlpha ([a, b, c].map (scaled 1)) alpha)) := by
  have hspace : Written " " False := .plain (by decide)
  have hclose : Written ")" False := .plain (by decide)
  have hparts := ho.append (written_intercalate hspace ([a, b, c].map (scaled 1)))
  unfold renderSpaced withAlpha
  rw [map_renderComponent, renderComponent_eq]
  dsimp only
  split
  · have hslash : Written " / " False := .plain (by decide)
    have halpha := (hslash.append (written_partText (scaled 1 alpha))).append hclose
    refine (hparts.append halpha).congr ?_
    simp only [hasSigned_append, hasSigned_cons, not_hasSigned_nil, or_false, false_or, or_assoc]
  · exact (hparts.append hclose).congr (by simp)

end Functions

/-! ## Colours -/

/-- The components that a colour is written with: hues as what they mix, and alpha where it is less
than one. -/
def parts : Color → List (Option Float32)
  | .named _ => []
  | .mixed m a b c alpha =>
    let mix (component : Float32 → Float32 → Float32 → Float32 → Float32) :=
      [0, 8, 4].map fun n => some (component (a.getD 0) (b.getD 0) (c.getD 0) n)
    match m with
    | .rgb => withAlpha ([a, b, c].map (scaled 255)) alpha
    | .hsl => withAlpha ((mix ofHue).map (scaled 255)) alpha
    | .hwb => withAlpha ((mix ofWhiteness).map (scaled 255)) alpha
    | _ => withAlpha ([a, b, c].map (scaled 1)) alpha

/-- The name of the colour's space has a hyphen, or a component that is written is signed. -/
def Hyphenated (c : Color) : Prop :=
  (match c with
    | .named _ => False
    | .mixed space .. => '-' ∈ space.name.toList) ∨ HasSigned c.parts

instance : DecidablePred Hyphenated
  | .named _ => inferInstanceAs (Decidable (False ∨ HasSigned []))
  | .mixed space .. => inferInstanceAs (Decidable ('-' ∈ space.name.toList ∨ HasSigned _))

theorem written_name (space : ColorSpace) : Written space.name ('-' ∈ space.name.toList) where
  passes := by
    have h : space.name.toList.all (fun c => c == '-' || passes c) = true := by
      cases space <;> decide
    simpa using h
  hyphen_mem := Iff.rfl

theorem names_are_letters :
    names.all (fun name => !name.toList.isEmpty && name.toList.all Char.isAlpha) = true := by
  decide +kernel

theorem letters_of_isName {name : String} (h : isName name = true) :
    name.toList ≠ [] ∧ ∀ c ∈ name.toList, c.isAlpha = true := by
  simpa using List.all_eq_true.mp names_are_letters name (List.contains_iff_mem.mp h)

theorem written_named {name : String} (h : isName name = true) : Written name False := by
  refine .plain (List.all_eq_true.mpr fun c hc => isPlain_of_isAlphanum ?_)
  rw [Char.isAlphanum, (letters_of_isName h).2 c hc, Bool.true_or]

theorem written_render {c : Color} (h : c.Known) : Written c.render c.Hyphenated := by
  cases c with
  | named name => exact (written_named h).congr (by simp [Hyphenated, parts, HasSigned])
  | mixed space a b c alpha =>
    have hparenthesis : Written "(" False := .plain (by decide)
    have hcolor : Written "color(" False := .plain (by decide)
    have hspace : Written " " False := .plain (by decide)
    have hfunction := (written_name space).append hparenthesis
    have hargument := (hcolor.append (written_name space)).append hspace
    cases space
    case rgb => exact (written_renderRgb ..).congr (by simp [Hyphenated, parts, ColorSpace.name])
    case hsl => exact (written_renderRgb ..).congr (by simp [Hyphenated, parts, ColorSpace.name])
    case hwb => exact (written_renderRgb ..).congr (by simp [Hyphenated, parts, ColorSpace.name])
    case lab | lch | oklab | oklch =>
      exact (written_renderSpaced a b c alpha hfunction).congr (by simp [Hyphenated, parts])
    all_goals exact (written_renderSpaced a b c alpha hargument).congr (by simp [Hyphenated, parts])

/-! ## Identifiers -/

/-- The text begins with a letter. -/
def BeginsWithLetter (t : String) : Prop := ∃ c, t.toList.head? = some c ∧ c.isAlpha = true

theorem BeginsWithLetter.append {s : String} (h : BeginsWithLetter s) (t : String) :
    BeginsWithLetter (s ++ t) := by
  obtain ⟨c, hc, hletter⟩ := h
  exact ⟨c, by rw [String.toList_append, List.head?_append, hc, Option.some_or], hletter⟩

theorem beginsWithLetter_renderRgb (a b c alpha : Option Float32) :
    BeginsWithLetter (renderRgb a b c alpha) := by
  unfold renderRgb
  dsimp only
  split
  · have hopen : BeginsWithLetter "rgba(" := ⟨'r', by decide⟩
    exact (hopen.append _).append _
  · have hopen : BeginsWithLetter "rgb(" := ⟨'r', by decide⟩
    exact (hopen.append _).append _

theorem beginsWithLetter_renderSpaced {opening : String} (h : BeginsWithLetter opening)
    (a b c alpha : Option Float32) : BeginsWithLetter (renderSpaced opening a b c alpha) :=
  (h.append _).append _

theorem beginsWithLetter_name (space : ColorSpace) : BeginsWithLetter space.name := by
  cases space <;> exact ⟨_, rfl, by decide⟩

theorem beginsWithLetter_render {c : Color} (h : c.Known) : BeginsWithLetter c.render := by
  cases c with
  | named name =>
    obtain ⟨hne, hletters⟩ := letters_of_isName h
    obtain ⟨first, rest, heq⟩ := List.exists_cons_of_ne_nil hne
    exact ⟨first, by rw [render, heq, List.head?_cons], hletters first (heq ▸ List.mem_cons_self)⟩
  | mixed space a b c alpha =>
    have hcolor : BeginsWithLetter "color(" := ⟨'c', by decide⟩
    cases space
    case rgb | hsl | hwb => exact beginsWithLetter_renderRgb ..
    case lab | lch | oklab | oklch =>
      exact beginsWithLetter_renderSpaced ((beginsWithLetter_name _).append _) ..
    all_goals exact beginsWithLetter_renderSpaced ((hcolor.append _).append _) ..

theorem exists_flatMap_idPart {t : String} (h : BeginsWithLetter t) :
    ∃ first rest, t.toList.flatMap idPart = first :: rest ∧ first.isAlpha = true := by
  obtain ⟨first, hfirst, hletter⟩ := h
  obtain ⟨rest, heq⟩ := List.head?_eq_some_iff.mp hfirst
  have hpart : idPart first = [first] :=
    idPart_of_isWordChar (by simp [isWordChar, Char.isAlphanum, hletter])
  exact ⟨first, rest.flatMap idPart, by rw [heq, List.flatMap_cons, hpart]; rfl, hletter⟩

theorem isDigit_of_isAlpha {c : Char} (h : c.isAlpha = true) : c.isDigit = false := by
  cases hd : c.isDigit with
  | false => rfl
  | true =>
    delta Char.isAlpha Char.isUpper Char.isLower at h
    delta Char.isDigit at hd
    simp only [Bool.or_eq_true, Bool.and_eq_true, decide_eq_true_eq, ge_iff_le,
      UInt32.le_iff_toNat_le] at h hd
    have hnine : '9'.val.toNat < 'A'.val.toNat ∧ '9'.val.toNat < 'a'.val.toNat := by decide
    omega

/-- Nothing is put in front of a text that begins with a letter. -/
theorem toList_id {c : Color} (h : BeginsWithLetter c.render) :
    c.id.toList = c.render.toList.flatMap idPart := by
  obtain ⟨first, rest, heq, hletter⟩ := exists_flatMap_idPart h
  have hdigit : first.isDigit = false := isDigit_of_isAlpha hletter
  unfold Color.id
  simp only [heq, List.head?_cons, Option.any_some, hdigit, Bool.false_eq_true, if_false,
    String.toList_ofList]

/-- **Identifiers of colours.** The identifier of a colour begins with a letter and is made of
letters, digits, underscores and hyphens. It has no hyphen if and only if the name of the colour's
space has none and no number that is written is signed. -/
theorem id_word_iff {text : String} {c : Color} (h : parse text = .ok c) :
    BeginsWithLetter c.id ∧ (∀ d ∈ c.id.toList, isWordChar d = true ∨ d = '-') ∧
      ((∀ d ∈ c.id.toList, isWordChar d = true) ↔ ¬ c.Hyphenated) := by
  have hknown := known_of_parse h
  have hwritten := written_render hknown
  have hletter := beginsWithLetter_render hknown
  have hid := toList_id hletter
  have hchars : ∀ d ∈ c.id.toList, isWordChar d = true ∨ d = '-' := by
    intro d hd
    rw [hid, List.mem_flatMap] at hd
    obtain ⟨e, he, hd⟩ := hd
    rcases hwritten.passes e he with rfl | hpasses
    · exact .inr (List.mem_singleton.mp hd)
    · exact .inl (List.all_eq_true.mp hpasses d hd)
  have hhyphen : '-' ∈ c.id.toList ↔ c.Hyphenated := by
    rw [hid, hyphen_mem_flatMap_idPart, hwritten.hyphen_mem]
  refine ⟨?_, hchars, ?_⟩
  · obtain ⟨first, rest, heq, hfirst⟩ := exists_flatMap_idPart hletter
    exact ⟨first, by rw [hid, heq, List.head?_cons], hfirst⟩
  · rw [← hhyphen]
    constructor
    · intro hall hmem
      exact absurd (hall '-' hmem) (by decide)
    · intro hnot d hd
      exact (hchars d hd).resolve_right fun heq => hnot (heq ▸ hd)

theorem id_word_rgb : ∃ c, parse "rgb(10% 20 none / 0.5)" = .ok c ∧ ¬ c.Hyphenated ∧
    BeginsWithLetter c.id ∧ ∀ d ∈ c.id.toList, isWordChar d = true := by
  have hplain : (match parse "rgb(10% 20 none / 0.5)" with
    | .ok c => !decide c.Hyphenated
    | .error _ => false) = true := by decide +kernel
  cases h : parse "rgb(10% 20 none / 0.5)" with
  | error e =>
    rw [h] at hplain
    cases hplain
  | ok c =>
    have hnot : ¬ c.Hyphenated := by simpa [h] using hplain
    obtain ⟨hletter, -, hword⟩ := id_word_iff h
    exact ⟨c, rfl, hnot, hletter, hword.mpr hnot⟩

/-- A minus sign stays in the identifier. -/
theorem id_minus_sign : ∃ c, parse "lab(50 -20 30)" = .ok c ∧ c.id = "lab_50_-20_30_" ∧
    ¬ ∀ d ∈ c.id.toList, isWordChar d = true := by
  have hminus : (match parse "lab(50 -20 30)" with
    | .ok c => c.id == "lab_50_-20_30_"
    | .error _ => false) = true := by decide +kernel
  cases h : parse "lab(50 -20 30)" with
  | error e =>
    rw [h] at hminus
    cases hminus
  | ok c =>
    have hid : c.id = "lab_50_-20_30_" := by simpa [h] using hminus
    refine ⟨c, rfl, hid, fun hall => ?_⟩
    rw [hid] at hall
    exact absurd (hall '-' (by decide)) (by decide)

end Color

end Flowchart
