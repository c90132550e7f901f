/-!
# Coordinates as numbers

Geometry and layout are written once, for any type of numbers with the operations of `Scalar`.

- `Float32`: the arithmetic of the charts that are drawn. The lesser and the greater of two numbers
  are the other one where one is not a number, and the second where neither is less, as with zeros of
  either sign.
- `Rat`: exact arithmetic, in which the laws of a layout hold without rounding.
-/

namespace Flowchart

/-- Numbers that coordinates can be. -/
class Scalar (α : Type) extends Add α, Sub α, Mul α, Div α, Neg α, BEq α where
  ofNat : Nat → α
  /-- The lesser of two numbers. -/
  least : α → α → α
  /-- The greater of two numbers. -/
  greatest : α → α → α
  /-- The first number is less than the second or equal to it. -/
  atMost : α → α → Bool
  /-- How many ones fit into a number, zero for one that is not positive. -/
  wholes : α → Nat

namespace Scalar

instance : Scalar Float32 where
  ofNat := Float32.ofNat
  least a b := if a < b then a else if b.isNaN then a else b
  greatest a b := if b < a then a else if b.isNaN then a else b
  atMost a b := a ≤ b
  wholes a := a.toUInt64.toNat

instance : Scalar Rat where
  ofNat n := n
  least a b := if a ≤ b then a else b
  greatest a b := if a ≤ b then b else a
  atMost a b := a ≤ b
  wholes a := a.floor.toNat

variable {α : Type} [Scalar α]

/-- No distance at all. -/
def zero : α := ofNat 0

/-- The middle of the way from zero to a number. -/
def half (a : α) : α := a / ofNat 2

end Scalar

end Flowchart
