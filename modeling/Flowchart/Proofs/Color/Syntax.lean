import Flowchart.Color.Syntax

/-!
# What is read as a colour

* `Gives`: a property of all that a reading gives, whatever text it reads.
* `Known`: the colour is no name, or a name that stands for a colour. `known_of_parse`: every text
  that is a colour is such a colour.
-/

namespace Flowchart.Color

/-! ## Readings -/

/-- All that the reading gives has the property. -/
def Gives {α : Type} (x : Reader α) (P : α → Prop) : Prop :=
  ∀ text a rest, x.run text = .ok (a, rest) → P a

namespace Gives

variable {α β : Type} {x : Reader α} {f : α → Reader β} {P : β → Prop}

theorem pure {b : β} (h : P b) : Gives (Pure.pure b) P := by
  intro text a rest hrun
  cases hrun
  exact h

theorem throw (fault : ColorFault) : Gives (MonadExcept.throw fault : Reader β) P := by
  intro text a rest hrun
  cases hrun

/-- What a reading gives is given by its last step. -/
theorem bind (hf : ∀ a, Gives (f a) P) : Gives (x >>= f) P := by
  intro text b rest hrun
  rw [StateT.run_bind] at hrun
  cases hx : x.run text with
  | error fault =>
    rw [hx] at hrun
    cases hrun
  | ok given =>
    rw [hx] at hrun
    exact hf given.1 given.2 b rest hrun

end Gives

/-! ## Colours -/

/-- The colour is no name, or a name that stands for a colour. -/
def Known : Color → Prop
  | .named name => isName name = true
  | .mixed .. => True

theorem known_of_ofHexDigits? {digits : List Nat} {c : Color} (h : ofHexDigits? digits = some c) :
    c.Known := by
  unfold ofHexDigits? at h
  split at h <;> cases h <;> trivial

theorem gives_hexArguments : Gives hexArguments Known := by
  refine .bind fun text => ?_
  extract_lets digits
  cases h : ofHexDigits? digits with
  | none => exact .throw _
  | some c => exact .bind fun _ => .pure (known_of_ofHexDigits? h)

/-! Every function is read to the end of its arguments, which are then mixed. -/

theorem gives_rgbArguments : Gives rgbArguments Known :=
  .bind fun _ => .bind fun _ => .bind fun _ => .bind fun _ => .bind fun _ => .bind fun _ =>
    .bind fun _ => .bind fun _ => .pure trivial

theorem gives_hslArguments : Gives hslArguments Known :=
  .bind fun _ => .bind fun _ => .bind fun _ => .bind fun _ => .bind fun _ => .bind fun _ =>
    .bind fun _ => .pure trivial

theorem gives_hwbArguments : Gives hwbArguments Known :=
  .bind fun _ => .bind fun _ => .bind fun _ => .bind fun _ => .bind fun _ => .pure trivial

theorem gives_labArguments (space : ColorSpace) (white percent : Float) :
    Gives (labArguments space white percent) Known :=
  .bind fun _ => .bind fun _ => .bind fun _ => .bind fun _ => .bind fun _ => .pure trivial

theorem gives_lchArguments (space : ColorSpace) (white percent : Float) :
    Gives (lchArguments space white percent) Known :=
  .bind fun _ => .bind fun _ => .bind fun _ => .bind fun _ => .bind fun _ => .pure trivial

theorem gives_spaceArguments : Gives spaceArguments Known := by
  refine .bind fun _ => .bind fun _ => .bind fun name => ?_
  cases name with
  | none => exact .throw _
  | some name =>
    dsimp only
    cases spaceNamed? name with
    | none => exact .throw _
    | some space =>
      exact .bind fun _ => .bind fun _ => .bind fun _ => .bind fun _ => .pure trivial

theorem gives_afterIdentifier (name : String) : Gives (afterIdentifier name) Known := by
  unfold afterIdentifier
  split
  · exact gives_rgbArguments
  · exact gives_rgbArguments
  · exact gives_hslArguments
  · exact gives_hslArguments
  · exact gives_hwbArguments
  · exact gives_labArguments _ _ _
  · exact gives_lchArguments _ _ _
  · exact gives_labArguments _ _ _
  · exact gives_lchArguments _ _ _
  · exact gives_spaceArguments
  · split
    · next hname => exact .pure hname
    · exact .throw _

theorem gives_reader : Gives reader Known := by
  refine .bind fun hex => ?_
  cases hex with
  | true => exact gives_hexArguments
  | false =>
    refine .bind fun name => ?_
    cases name with
    | none => exact .throw _
    | some name => exact gives_afterIdentifier name

theorem known_of_parse {input : String} {c : Color} (h : parse input = .ok c) : c.Known := by
  unfold parse at h
  split at h
  · cases h
  · next hrun =>
    cases h
    exact gives_reader _ _ _ hrun
  · cases h

end Flowchart.Color
