/-!
# Shortest decimals

The text of a binary floating point number is the decimal with the fewest digits that reads back as
the same number, and of several such decimals the one nearest to it.

- `BinaryNumber.Accepts` says which decimals read back: those nearer to the number than to its neighbours,
  and those halfway if its mantissa is even.
- `BinaryNumber.shortest` tries the grids of the powers of ten from coarse to fine. Its result reads back
  wherever the search reaches a grid that the number lies on (`accepts_search`).
- `Decimal.render` writes a decimal without an exponent, however long it gets.
- `Decimal.toFloat` reads a decimal with 64 bits, and `narrow` rounds the result to 32 bits.
-/

namespace Flowchart

/-- The number `digits * 10 ^ exponent`. -/
structure Decimal where
  digits : Nat
  exponent : Int
deriving DecidableEq, Repr

/-- The positive number `mantissa * 2 ^ exponent` of a binary format. Its next neighbours are one unit
of the last place away, but the lower one only half a unit where `atPower` holds. -/
structure BinaryNumber where
  mantissa : Nat
  exponent : Int
  atPower : Bool
deriving DecidableEq, Repr

namespace BinaryNumber

/-- The number, counted in quarters of a unit of the last place. -/
def quarters (b : BinaryNumber) : Nat := 4 * b.mantissa

/-- Halfway to the lower neighbour, counted in quarters. -/
def lower (b : BinaryNumber) : Nat := b.quarters - if b.atPower then 1 else 2

/-- Halfway to the upper neighbour, counted in quarters. -/
def upper (b : BinaryNumber) : Nat := b.quarters + 2

/-- The length of a quarter in steps of the grid `10 ^ e`, as a fraction. -/
def stepsPerQuarter (b : BinaryNumber) (e : Int) : Nat × Nat :=
  let power := b.exponent - 2
  (Nat.pow 2 power.toNat * Nat.pow 10 (-e).toNat, Nat.pow 2 (-power).toNat * Nat.pow 10 e.toNat)

/-- The decimal `n * 10 ^ e` reads back as the number. -/
def Accepts (b : BinaryNumber) (e : Int) (n : Nat) : Prop :=
  let (up, down) := b.stepsPerQuarter e
  if b.mantissa % 2 = 0 then b.lower * up ≤ n * down ∧ n * down ≤ b.upper * up
  else b.lower * up < n * down ∧ n * down < b.upper * up

instance (b : BinaryNumber) (e : Int) (n : Nat) : Decidable (b.Accepts e n) := by
  unfold Accepts; infer_instance

/-- The decimal of the grid `10 ^ e` that reads back as the number and is nearest to it, if any does.
Of two that are equally near it is the greater one. -/
def nearest? (b : BinaryNumber) (e : Int) : Option Nat :=
  let (up, down) := b.stepsPerQuarter e
  let below := b.quarters * up / down
  let distance := b.quarters * up % down
  if b.Accepts e below ∧ (2 * distance < down ∨ ¬ b.Accepts e (below + 1)) then some below
  else if b.Accepts e (below + 1) then some (below + 1)
  else none

/-- The first hit on the grids `10 ^ e`, `10 ^ (e - 1)` and so on, `count` of them; the number itself
in units of the last place where there is none. -/
def search (b : BinaryNumber) (e : Int) : Nat → Decimal
  | 0 => ⟨b.mantissa, e⟩
  | count + 1 =>
    match b.nearest? e with
    | some n => ⟨n, e⟩
    | none => search b (e - 1) count

/-- The exponent of a power of ten above the number. -/
def ceiling (b : BinaryNumber) : Int := ((b.mantissa.log2 : Int) + b.exponent + 1) * 30103 / 100000 + 1

/-- The decimal of the fewest digits that reads back as the number. Where the exponent is negative
the number itself lies on the grid of that exponent, and else on that of the ones. -/
def shortest (b : BinaryNumber) : Decimal :=
  b.search b.ceiling (b.ceiling - min b.exponent 0 + 1).toNat

theorem accepts_nearest {b : BinaryNumber} {e : Int} {n : Nat} (h : b.nearest? e = some n) :
    b.Accepts e n := by
  unfold nearest? at h
  dsimp only at h
  split at h
  · next hit => exact Option.some.inj h ▸ hit.1
  · split at h
    · next hit => exact Option.some.inj h ▸ hit
    · exact absurd h (by simp)

theorem accepts_search {b : BinaryNumber} {e : Int} {count : Nat} {i : Nat} (hi : i < count)
    (hit : (b.nearest? (e - i)).isSome) :
    b.Accepts (b.search e count).exponent (b.search e count).digits := by
  induction count generalizing e i with
  | zero => omega
  | succ count ih =>
    unfold search
    split
    · next n h => exact accepts_nearest h
    · next h =>
      cases i with
      | zero => simp [h] at hit
      | succ i =>
        refine ih (i := i) (by omega) ?_
        rwa [show e - 1 - (i : Int) = e - ((i + 1 : Nat) : Int) by omega]

end BinaryNumber

/-! ## Reading -/

/-- The 64 bit number nearest to a decimal. Far outside their range no power of ten is computed. -/
def Decimal.toFloat (d : Decimal) : Float :=
  if d.digits = 0 ∨ d.exponent + d.digits.log2 < -400 then 0
  else if 400 < d.exponent then 1 / 0
  else if d.exponent < 0 then Float.ofScientific d.digits true (-d.exponent).toNat
  else Float.ofScientific d.digits false d.exponent.toNat

/-! ## Rounding to 32 bits -/

/-- The quotient rounded to the nearest integer, to the even one of two that are equally near. -/
def roundedQuotient (n d : Nat) : Nat :=
  if 2 * (n % d) < d ∨ 2 * (n % d) = d ∧ n / d % 2 = 0 then n / d else n / d + 1

/-- No integer is nearer than half the divisor. -/
theorem roundedQuotient_near {d : Nat} (hd : 0 < d) (n : Nat) :
    2 * n ≤ 2 * (d * roundedQuotient n d) + d ∧ 2 * (d * roundedQuotient n d) ≤ 2 * n + d := by
  have hdiv := Nat.div_add_mod n d
  have hmod := Nat.mod_lt n hd
  unfold roundedQuotient
  split
  · omega
  · rw [Nat.mul_succ]
    omega

/-- The 32 bit number nearest to a 64 bit number, and of two that are equally near the one with an
even mantissa. Its mantissa has 29 places fewer, and fewer still where it is subnormal. -/
def narrow (a : Float) : Float32 :=
  let bits := a.toBits.toNat
  let fraction := bits % Nat.pow 2 52
  let exponent := bits / Nat.pow 2 52 % Nat.pow 2 11
  let infinite : Nat := 255 * Nat.pow 2 23
  let magnitude :=
    if exponent = 2047 then if fraction = 0 then infinite else infinite + Nat.pow 2 22
    else
      let mantissa := if exponent = 0 then fraction else Nat.pow 2 52 + fraction
      let place := max exponent 1
      -- A mantissa that is rounded up to the next power of two carries into the exponent.
      min infinite ((place - 897) * Nat.pow 2 23 +
        roundedQuotient mantissa (Nat.pow 2 (place - 897 + 926 - place)))
  Float32.ofBits (UInt32.ofNat (bits / Nat.pow 2 63 * Nat.pow 2 31 + magnitude))

/-! ## Text -/

/-- A decimal without an exponent. -/
def Decimal.render (d : Decimal) : String :=
  let digits := (toString d.digits).toList
  let zeros (n : Nat) : List Char := List.replicate n '0'
  if 0 ≤ d.exponent then String.ofList (digits ++ zeros d.exponent.toNat)
  else
    let places := (-d.exponent).toNat
    let padded := zeros (places + 1 - digits.length) ++ digits
    let whole := padded.length - places
    String.ofList (padded.take whole ++ '.' :: padded.drop whole)

/-- The text of a 32 bit number. -/
def renderNumber (a : Float32) : String :=
  let bits := a.toBits.toNat
  let mantissa : Nat := bits % Nat.pow 2 23
  let exponent : Nat := bits / Nat.pow 2 23 % Nat.pow 2 8
  let magnitude :=
    if exponent = 255 then "inf"
    else if exponent = 0 then
      if mantissa = 0 then "0"
      else (BinaryNumber.shortest ⟨mantissa, -149, false⟩).render
    else
      (BinaryNumber.shortest
        ⟨Nat.pow 2 23 + mantissa, (exponent : Int) - 150, mantissa == 0 && 1 < exponent⟩).render
  if exponent = 255 ∧ mantissa ≠ 0 then "NaN"
  else if bits < Nat.pow 2 31 then magnitude
  else "-" ++ magnitude

end Flowchart
