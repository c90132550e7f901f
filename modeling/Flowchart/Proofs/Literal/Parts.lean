import Flowchart.Proofs.Literal

/-!
# Escapes in literals

The inside of a literal is a list of parts, each of them a plain character or a backslash with the
character that it takes.

* `Reads`: a literal with its parts. `exists_reads`: what a scan takes can be read, and a literal
  that is not closed ends where nothing more can be taken (`Stops`).
* `exists_reads_or_leaves`: where only the quote ends a literal, one that is not closed takes all of
  the text.
* `closed_of_flat`: a literal with a closing quote ends there, whatever comes after, unless it holds
  a character that would have ended it (`closed_of_reads` where there are no such characters).
-/

namespace Flowchart.Literal

/-- A character of a literal, or a backslash and the character that it takes. -/
inductive Part where
  | plain (c : Char)
  | escape (c : Char)
deriving DecidableEq, Repr

/-- The part as it is written. -/
def Part.text : Part → List Char
  | .plain c => [c]
  | .escape c => ['\\', c]

/-- The parts as they are written. -/
def inside (parts : List Part) : List Char := parts.flatMap Part.text

/-- The part is neither the quote nor a backslash alone. -/
def Part.Plain (quote : Char) (p : Part) : Prop := p.text ≠ [quote] ∧ p.text ≠ ['\\']

instance (quote : Char) (p : Part) : Decidable (p.Plain quote) := inferInstanceAs (Decidable (_ ∧ _))

/-- The literal consists of its opening quote, the parts and, if it is closed, the closing quote. -/
structure Reads (quote : Char) (literal : List Char) (parts : List Part) (closed : Bool) :
    Prop where
  text : literal = quote :: (inside parts ++ if closed then [quote] else [])
  plain : ∀ p ∈ parts, p.Plain quote

instance (quote : Char) (literal : List Char) (parts : List Part) (closed : Bool) :
    Decidable (Reads quote literal parts closed) :=
  decidable_of_iff (_ ∧ _) ⟨fun h => ⟨h.1, h.2⟩, fun h => ⟨h.text, h.plain⟩⟩

@[simp] theorem inside_nil : inside [] = [] := rfl

theorem inside_cons (p : Part) (ps : List Part) : inside (p :: ps) = p.text ++ inside ps :=
  List.flatMap_cons

theorem inside_append (ps qs : List Part) : inside (ps ++ qs) = inside ps ++ inside qs :=
  List.flatMap_append

variable {stop : Char → Bool} {quote : Char} {t : List Char} {p : Part} {parts : List Part}
  {closed : Bool}

theorem Part.plain_plain {c : Char} : (Part.plain c).Plain quote ↔ c ≠ quote ∧ c ≠ '\\' := by
  simp [Plain, Part.text]

theorem Part.plain_escape (quote c : Char) : (Part.escape c).Plain quote := by
  simp [Plain, Part.text]

theorem reads_nil (quote : Char) : Reads quote [quote] [] false := ⟨rfl, by simp⟩

/-- One more part after the opening quote. -/
theorem Reads.cons (h : Reads quote (quote :: t) parts closed)
    (hp : p.Plain quote) : Reads quote (quote :: (p.text ++ t)) (p :: parts) closed :=
  ⟨by rw [(List.cons.inj h.text).2, inside_cons, List.append_assoc],
    List.forall_mem_cons.mpr ⟨hp, h.plain⟩⟩

/-- Nothing of the text can be taken into a literal that is under way: it is empty or begins with a
character of `stop`, or with a backslash before such a text. -/
def Stops (stop : Char → Bool) (rest : List Char) : Prop :=
  (∀ c ∈ rest.head?, stop c = true) ∨ ∃ r, rest = '\\' :: r ∧ ∀ c ∈ r.head?, stop c = true

theorem exists_reads (stop : Char → Bool) (quote : Char) (cs : List Char) :
    ∃ parts closed, Reads quote (quote :: (scan stop quote cs).1) parts closed ∧
      (closed = false → Stops stop (scan stop quote cs).2) := by
  fun_induction scan stop quote cs with
  | case1 => exact ⟨[], false, reads_nil quote, fun _ => .inl (by simp)⟩
  | case2 => exact ⟨[], true, ⟨rfl, by simp⟩, by simp⟩
  | case3 => exact ⟨[], false, reads_nil quote, fun _ => .inr ⟨[], rfl, by simp⟩⟩
  | case4 d ds hd => exact ⟨[], false, reads_nil quote, fun _ => .inr ⟨d :: ds, rfl, by simpa⟩⟩
  | case5 d ds _ taken rest h _ ih =>
    rw [h] at ih
    obtain ⟨parts, closed, hreads, hstops⟩ := ih
    exact ⟨.escape d :: parts, closed, hreads.cons (Part.plain_escape quote d), hstops⟩
  | case6 c cs _ _ hstop => exact ⟨[], false, reads_nil quote, fun _ => .inl (by simpa)⟩
  | case7 c cs hq hb _ taken rest h ih =>
    rw [h] at ih
    obtain ⟨parts, closed, hreads, hstops⟩ := ih
    exact ⟨.plain c :: parts, closed, hreads.cons (Part.plain_plain.mpr ⟨hq, hb⟩), hstops⟩

/-- What has no closing quote takes all of the text, except for a backslash at its end. -/
theorem exists_reads_or_leaves (quote : Char) (cs : List Char) :
    ∃ parts closed, Reads quote (quote :: (scan (fun _ => false) quote cs).1) parts closed ∧
      (closed = false → (scan (fun _ => false) quote cs).2 = [] ∨
        (scan (fun _ => false) quote cs).2 = ['\\']) := by
  have hnone {r : List Char} (h : ∀ c ∈ r.head?, false = true) : r = [] := by
    cases r with
    | nil => rfl
    | cons c r => cases h c rfl
  obtain ⟨parts, closed, hreads, hstops⟩ := exists_reads (fun _ => false) quote cs
  refine ⟨parts, closed, hreads, fun hclosed => ?_⟩
  rcases hstops hclosed with h | ⟨r, hr, h⟩
  · exact .inl (hnone h)
  · exact .inr (by rw [hr, hnone h])

/-- A literal goes on after its parts if they hold no character that ends it. -/
theorem open_inside (hquote : quote ≠ '\\') (h : ∀ p ∈ parts, p.Plain quote)
    (hstop : ∀ c ∈ inside parts, stop c = false) : Open stop quote (inside parts) := by
  induction parts with
  | nil => exact open_nil
  | cons p ps ih =>
    obtain ⟨hp, hps⟩ := List.forall_mem_cons.mp h
    rw [inside_cons] at hstop
    obtain ⟨hhead, htail⟩ := List.forall_mem_append.mp hstop
    intro rest
    rw [inside_cons, List.append_assoc]
    cases p with
    | plain c =>
      obtain ⟨hq, hb⟩ := Part.plain_plain.mp hp
      have hc : stop c = false := hhead c List.mem_cons_self
      rw [Part.text, List.singleton_append, scan_cons hq hb hc, ih hps htail]
      rfl
    | escape c =>
      have hc : stop c = false := hhead c (by simp [Part.text])
      rw [Part.text, List.cons_append, List.singleton_append, scan_escape hquote.symm hc,
        ih hps htail]
      rfl

/-- A literal with a closing quote ends there if it holds no character that ends it before. -/
theorem closed_of_flat (hquote : quote ≠ '\\') (h : Reads quote (quote :: t) parts true)
    (hstop : ∀ c ∈ t, stop c = false) : Closed stop quote t := by
  obtain ⟨htext, hplain⟩ := h
  obtain rfl := (List.cons.inj htext).2
  rw [if_pos rfl] at hstop ⊢
  have hinside := (List.forall_mem_append.mp hstop).1
  intro rest
  rw [List.append_assoc, open_inside hquote hplain hinside, closed_quote]

/-- A literal with a closing quote ends there if nothing else can end it. -/
theorem closed_of_reads (hquote : quote ≠ '\\') (h : Reads quote (quote :: t) parts true) :
    Closed (fun _ => false) quote t :=
  closed_of_flat hquote h fun _ _ => rfl

end Flowchart.Literal
