import Flowchart.Text.Literal

/-!
# Closed and open literals

* `Literal.Closed`, `Literal.Open`: what a literal has taken ends it, whatever comes after, or goes
  on with what comes after. `closed_or_open`: one of both holds of what a scan takes.
* `scan_congr`: where nothing of what ends an unterminated literal stands in the text, that makes no
  difference.
* `scan_leaves_of_prefix`: the beginning of a literal is a literal again, up to a last backslash.
* `Literal.Waits`: a text that ends inside the literal. `scan_append_or_waits`: a literal ends in
  the text before it, or it waits for what comes after.
-/

namespace Flowchart

namespace Literal

variable {stop : Char → Bool} {quote : Char} {t cs : List Char}

/-- The literal ends after `t`. -/
def Closed (stop : Char → Bool) (quote : Char) (t : List Char) : Prop :=
  ∀ rest, scan stop quote (t ++ rest) = (t, rest)

/-- The literal goes on after `t`. -/
def Open (stop : Char → Bool) (quote : Char) (t : List Char) : Prop :=
  ∀ rest, scan stop quote (t ++ rest) =
    (t ++ (scan stop quote rest).1, (scan stop quote rest).2)

theorem closed_quote : Closed stop quote [quote] := by
  intro rest
  rw [List.singleton_append, scan.eq_def]
  simp

theorem open_nil : Open stop quote [] := fun _ => rfl

/-- One more character in front, or a backslash and the character that it takes. -/
theorem scan_cons {c : Char} (hq : c ≠ quote) (hb : c ≠ '\\') (hs : stop c = false)
    (cs : List Char) :
    scan stop quote (c :: cs) = (c :: (scan stop quote cs).1, (scan stop quote cs).2) := by
  rw [scan.eq_def]
  simp [hq, hb, hs]

theorem scan_escape {d : Char} (hq : '\\' ≠ quote) (hs : stop d = false) (cs : List Char) :
    scan stop quote ('\\' :: d :: cs) =
      ('\\' :: d :: (scan stop quote cs).1, (scan stop quote cs).2) := by
  rw [scan.eq_def]
  simp [hq, hs]

/-- What ends an unterminated literal makes no difference where nothing of it stands in the text. -/
theorem scan_congr {stop' : Char → Bool} (h : ∀ c ∈ cs, stop c = stop' c) :
    scan stop quote cs = scan stop' quote cs := by
  fun_induction scan stop quote cs with
  | case1 => rfl
  | case2 =>
    rw [scan.eq_def]
    simp
  | case3 hq =>
    rw [scan.eq_def]
    simp [hq]
  | case4 d ds hd hq =>
    rw [scan.eq_def]
    simp [hq, ← h d (by simp), hd]
  | case5 d ds hd taken rest hscan hq ih =>
    have hd' : stop' d = false := by rw [← h d (by simp)]; simpa using hd
    rw [scan_escape hq hd', ← ih fun c hc => h c (by simp [hc]), hscan]
  | case6 c cs hq hb hs =>
    rw [scan.eq_def]
    simp [hq, hb, ← h c (by simp), hs]
  | case7 c cs hq hb hs taken rest hscan ih =>
    have hs' : stop' c = false := by rw [← h c (by simp)]; simpa using hs
    rw [scan_cons hq hb hs', ← ih fun c hc => h c (by simp [hc]), hscan]

/-- What a scan takes closes the literal, or the literal goes on and nothing of what the scan leaves
can be taken. -/
theorem closed_or_open (stop : Char → Bool) (quote : Char) (cs : List Char) :
    Closed stop quote (scan stop quote cs).1 ∨ Open stop quote (scan stop quote cs).1 ∧
      (scan stop quote (scan stop quote cs).2).1 = [] := by
  fun_induction scan stop quote cs with
  | case1 => exact .inr ⟨open_nil, rfl⟩
  | case2 => exact .inl closed_quote
  | case3 hq =>
    refine .inr ⟨open_nil, ?_⟩
    rw [scan.eq_def]
    simp [hq]
  | case4 d ds hd hq =>
    refine .inr ⟨open_nil, ?_⟩
    rw [scan.eq_def]
    simp [hq, hd]
  | case5 d ds hd taken rest h hq ih =>
    rw [h] at ih
    refine ih.imp (fun hclosed x => ?_) (And.imp_left fun hopen x => ?_)
    · rw [List.cons_append, List.cons_append, scan_escape hq (by simpa using hd), hclosed]
    · rw [List.cons_append, List.cons_append, scan_escape hq (by simpa using hd), hopen]
      rfl
  | case6 c cs hq hb hs =>
    refine .inr ⟨open_nil, ?_⟩
    rw [scan.eq_def]
    simp [hq, hb, hs]
  | case7 c cs hq hb hs taken rest h ih =>
    rw [h] at ih
    have hs : stop c = false := by simpa using hs
    refine ih.imp (fun hclosed x => ?_) (And.imp_left fun hopen x => ?_)
    · rw [List.cons_append, scan_cons hq hb hs, hclosed]
    · rw [List.cons_append, scan_cons hq hb hs, hopen]
      rfl

/-- The beginning of a literal is taken as a whole, except for a backslash at its end. -/
theorem scan_leaves_of_prefix (h : t <+: (scan stop quote cs).1) :
    (scan stop quote t).2 = [] ∨ (scan stop quote t).2 = ['\\'] := by
  fun_induction scan stop quote cs generalizing t with
  | case1 | case3 | case4 | case6 =>
    obtain rfl := List.prefix_nil.mp h
    exact .inl rfl
  | case2 =>
    cases t with
    | nil => exact .inl rfl
    | cons d t =>
      obtain ⟨rfl, ht⟩ := List.cons_prefix_cons.mp h
      obtain rfl := List.prefix_nil.mp ht
      exact .inl (congrArg Prod.snd (closed_quote []))
  | case5 d ds hd taken rest h' hq ih =>
    cases t with
    | nil => exact .inl rfl
    | cons c t =>
      obtain ⟨rfl, htail⟩ := List.cons_prefix_cons.mp h
      cases t with
      | nil =>
        refine .inr ?_
        rw [scan.eq_def]
        simp [hq]
      | cons e t =>
        obtain ⟨rfl, ht⟩ := List.cons_prefix_cons.mp htail
        rw [scan_escape hq (by simpa using hd)]
        rw [h'] at ih
        exact ih ht
  | case7 c cs hq hb hs taken rest h' ih =>
    cases t with
    | nil => exact .inl rfl
    | cons d t =>
      obtain ⟨rfl, ht⟩ := List.cons_prefix_cons.mp h
      rw [scan_cons hq hb (by simpa using hs)]
      rw [h'] at ih
      exact ih ht

/-! ## Literals that wait for their end -/

/-- The literal goes on after `t`, or a backslash at the end of `t` waits for the next character. -/
def Waits (stop : Char → Bool) (quote : Char) (t : List Char) : Prop :=
  Open stop quote t ∨ ∃ t', t = t' ++ ['\\'] ∧ Open stop quote t'

/-- Where nothing can be taken nothing can be taken after more text, unless there is a backslash or
nothing at all. -/
theorem scan_append_of_nil (h : (scan stop quote cs).1 = []) : cs = [] ∨ cs = ['\\'] ∨
    ∀ x, scan stop quote (cs ++ x) = ([], cs ++ x) := by
  revert h
  fun_cases scan stop quote cs with
  | case1 => exact fun _ => .inl rfl
  | case3 => exact fun _ => .inr (.inl rfl)
  | case4 d ds hd hq =>
    refine fun _ => .inr (.inr fun x => ?_)
    rw [List.cons_append, List.cons_append, scan.eq_def]
    simp [hq, hd]
  | case6 c cs hq hb hs =>
    refine fun _ => .inr (.inr fun x => ?_)
    rw [List.cons_append, scan.eq_def]
    simp [hq, hb, hs]
  | case2 | case5 | case7 => simp

/-- A literal ends in the text, or it waits for what comes after. -/
theorem scan_append_or_waits (stop : Char → Bool) (quote : Char) (cs : List Char) :
    (∀ x, scan stop quote (cs ++ x) = ((scan stop quote cs).1, (scan stop quote cs).2 ++ x)) ∨
    Waits stop quote cs := by
  have hcs := scan_append stop quote cs
  rcases closed_or_open stop quote cs with hclosed | ⟨hopen, hnone⟩
  · refine .inl fun x => ?_
    conv => lhs; rw [← hcs, List.append_assoc, hclosed]
  · rcases scan_append_of_nil hnone with hrest | hrest | hrest
    · rw [hrest, List.append_nil] at hcs
      exact .inr (.inl (hcs ▸ hopen))
    · exact .inr (.inr ⟨_, by rw [← hrest, hcs], hopen⟩)
    · refine .inl fun x => ?_
      conv => lhs; rw [← hcs, List.append_assoc, hopen, hrest, List.append_nil]

/-- The literal takes text in which nothing stands that ends it. -/
theorem scan_of_plain {w : List Char} (hw : ∀ c ∈ w, c ≠ quote ∧ c ≠ '\\' ∧ stop c = false) :
    scan stop quote w = (w, []) := by
  induction w with
  | nil => rfl
  | cons c w ih =>
    obtain ⟨⟨hq, hb, hs⟩, hw⟩ := List.forall_mem_cons.mp hw
    rw [scan_cons hq hb hs, ih hw]

/-- A literal that waits takes such text, except for a backslash before it if the text is empty. -/
theorem Waits.scan_append_plain (ht : Waits stop quote t) (hquote : '\\' ≠ quote) {w : List Char}
    (hw : ∀ c ∈ w, c ≠ quote ∧ c ≠ '\\' ∧ stop c = false) :
    (scan stop quote (t ++ w)).2 = [] ∨ (scan stop quote (t ++ w)).2 = ['\\'] := by
  rcases ht with hopen | ⟨t', rfl, hopen⟩
  · rw [hopen, scan_of_plain hw]
    exact .inl rfl
  · rw [List.append_assoc, hopen]
    cases w with
    | nil =>
      refine .inr ?_
      rw [List.append_nil, scan.eq_def]
      simp [hquote]
    | cons c w =>
      obtain ⟨⟨-, -, hs⟩, hw⟩ := List.forall_mem_cons.mp hw
      rw [List.singleton_append, scan_escape hquote hs, scan_of_plain hw]
      exact .inl rfl

end Literal

end Flowchart
