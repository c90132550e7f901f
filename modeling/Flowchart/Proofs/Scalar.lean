import Flowchart.Scalar

/-!
# What is a number

Arithmetic that rounds has a value that is not a number. It is the one value that does not equal
itself.

* `Scalar.IsNumber`: the value equals itself. In the arithmetic of charts this says that it is a
  number (`isNumber_iff`), and in exact arithmetic it always holds.
* `Scalar.Strict`: a sum is a number only if its first summand is one.
-/

namespace Flowchart.Scalar

variable {α : Type} [Scalar α]

/-- The value equals itself. -/
def IsNumber (a : α) : Prop := (a == a) = true

/-- What is not a number stays so whatever is added to it. -/
class Strict (α : Type) [Scalar α] : Prop where
  isNumber_of_add : ∀ {a b : α}, IsNumber (a + b) → IsNumber a

instance : Strict Rat where
  isNumber_of_add _ := beq_self_eq_true _

/-! ## Arithmetic that rounds -/

section Float

open Float.Model (UnpackedFloat)

variable {a b : Float32}

theorem beq_self_unpacked (u : UnpackedFloat) : u.beq u = !u.isNaN := by
  cases u with
  | notANumber => rfl
  | infinity sign | zero sign => cases sign <;> rfl
  | finite sign m e h =>
    have hcompare : (compare e e).then (compare m m) = .eq := by simp
    cases sign with
    | negative =>
      show (some ((compare e e).then (compare m m)).swap == some .eq) = true
      rw [hcompare]
      rfl
    | positive =>
      show (some ((compare e e).then (compare m m)) == some .eq) = true
      rw [hcompare]
      rfl

theorem isNumber_iff : IsNumber a ↔ a.isNaN = false := by
  have h : (a == a) = !a.isNaN := beq_self_unpacked a.toModel.unpack
  rw [IsNumber, h, Bool.not_eq_true']

theorem isNaN_add (h : a.isNaN = true) : (a + b).isNaN = true := by
  have hu : a.toModel.unpack = .notANumber := by
    replace h : a.toModel.unpack.isNaN = true := h
    cases hu : a.toModel.unpack with
    | notANumber => rfl
    | infinity | zero | finite => rw [hu] at h; cases h
  have hadd (u : UnpackedFloat) : UnpackedFloat.add .binary32 .notANumber u = .notANumber := rfl
  show (Float32.Model.pack (.add .binary32 a.toModel.unpack b.toModel.unpack)).isNaN = true
  rw [hu, hadd]
  rfl

instance : Strict Float32 where
  isNumber_of_add {a b} h := by
    rw [isNumber_iff] at h ⊢
    cases ha : a.isNaN with
    | false => rfl
    | true => rw [isNaN_add ha] at h; cases h

end Float

end Flowchart.Scalar
