import Flowchart.Decimal

/-!
# Settings

A setting is a value as configuration texts hold it, whatever syntax they have: a scalar, a list, or
a table of named settings.
-/

namespace Flowchart

/-- The value of a setting. -/
inductive Setting where
  | null
  | boolean (value : Bool)
  | integer (value : Int)
  | number (value : Float)
  | text (value : String)
  /-- A date, a time or both. -/
  | moment (value : String)
  | list (items : List Setting)
  | table (entries : List (String × Setting))
deriving Inhabited

namespace Setting

/-- The entry of a table with a given name. -/
def entry? (name : String) (entries : List (String × Setting)) : Option Setting :=
  entries.lookup name

/-- The value of an entry where there is one, read by `read`, and `default` where there is none;
nothing where it cannot be read. -/
def entryOr (read : Setting → Option α) (default : α) (name : String)
    (entries : List (String × Setting)) : Option α :=
  match entry? name entries with
  | none => some default
  | some value => read value

/-- The entries of a record with the given fields. A table is one, and so is a list of the values of
the first fields, in their order; a moment has no fields. With `exact`, a list does not go on after the
last field. -/
def record? (exact : Bool) (fields : List String) : Setting → Option (List (String × Setting))
  | .table entries => some entries
  | .list items =>
    if exact && fields.length < items.length then none else some (fields.zip items)
  | .moment _ => some []
  | _ => none

/-- A count that fits into 64 bits. -/
def count? : Setting → Option Nat
  | .integer n => if 0 ≤ n ∧ n < Int.pow 2 64 then some n.toNat else none
  | _ => none

/-- A number with 32 bits; integers of 64 bits, with or without a sign bit, are numbers too. -/
def number? : Setting → Option Float32
  | .integer n => if -Int.pow 2 63 ≤ n ∧ n < Int.pow 2 64 then some (Float32.ofInt n) else none
  | .number a => some (narrow a)
  | _ => none

/-- A text, or nothing where the setting is null. -/
def text? : Setting → Option (Option String)
  | .null => some none
  | .text value => some (some value)
  | _ => none

end Setting

end Flowchart
