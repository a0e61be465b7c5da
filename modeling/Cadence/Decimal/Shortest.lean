/-!
# The shortest decimal of a floating-point number

A binary floating-point number stands for every real number that rounds to it. Among the decimals
in that interval this module selects one with the fewest digits, and of those the one nearest to
the number itself.

## Main definitions

* `Binary` — a positive number `mantissa * 2 ^ exponent`
* `Decimal` — a number `digits * 10 ^ exponent`
* `Binary.ReadsBack` — the decimals that round to a number
* `Binary.shortest` — the selected decimal

## Implementation notes

A power of two with a negative exponent is a power of five over a power of ten, so every finite
number is a whole number of units `10 ^ scale` with `scale ≤ 0`. In quarters of that unit the
number, the ends of its interval and every candidate are natural numbers, and the search compares
them exactly. The candidates with `n` digits are the two neighbours of the number among the
multiples of the power of ten that leaves `n` digits. Seventeen digits are enough for any number;
should none of the candidates pass, the exact decimal is returned.
-/

namespace Cadence

/-- A positive number in binary, `mantissa * 2 ^ exponent`. -/
structure Binary where
  /-- The significant bits. -/
  mantissa : Nat
  /-- The power of two they count. -/
  exponent : Int
  /-- Whether the next smaller number is only half as far away as the next larger one. -/
  narrowBelow : Bool

/-- A number in decimal, `digits * 10 ^ exponent`. -/
structure Decimal where
  /-- The significant digits, as one number. -/
  digits : Nat
  /-- The power of ten they count. -/
  exponent : Int
deriving DecidableEq

namespace Binary

/-- The number of units of `10 ^ scale` in one step of the mantissa. -/
def unit (x : Binary) : Nat := Nat.pow 2 x.exponent.toNat * Nat.pow 5 (-x.exponent).toNat

/-- The exponent of the unit in which the number is whole. -/
def scale (x : Binary) : Int := min x.exponent 0

/-- The number in units of `10 ^ scale`. -/
def whole (x : Binary) : Nat := x.mantissa * x.unit

/-- Whether `n` units of `10 ^ scale` round to the number: they lie between the points halfway to
the two neighbours, which themselves round to it exactly if the mantissa is even. -/
def ReadsBack (x : Binary) (n : Nat) : Prop :=
  let low := (if x.narrowBelow then 4 * x.mantissa - 1 else 4 * x.mantissa - 2) * x.unit
  let high := (4 * x.mantissa + 2) * x.unit
  low < 4 * n ∧ 4 * n < high ∨ x.mantissa % 2 = 0 ∧ (4 * n = low ∨ 4 * n = high)

instance (x : Binary) (n : Nat) : Decidable (x.ReadsBack n) :=
  inferInstanceAs (Decidable (_ ∨ _))

/-- The better of the number's two neighbours among the multiples of `10 ^ dropped` units, if one of
them reads back. The upper one is taken where both are equally near. -/
def candidate? (x : Binary) (dropped : Nat) : Option Nat :=
  let multiple := Nat.pow 10 dropped
  let below := x.whole / multiple
  let above := below + 1
  let readsBack (n : Nat) : Bool := decide (x.ReadsBack (n * multiple))
  match readsBack below, readsBack above with
  | false, false => none
  | true, false => some below
  | false, true => some above
  | true, true => some (if 2 * x.whole < (below + above) * multiple then below else above)

/-- The number of digits of the number in units of `10 ^ scale`. -/
def length (x : Binary) : Nat := (Nat.toDigits 10 x.whole).length

/-- The decimal with the fewest digits that reads back, at most seventeen, and nearest to the number
among those. -/
def shortest (x : Binary) : Decimal :=
  let found := (List.range 17).findSome? fun i =>
    let dropped := x.length - (i + 1)
    (x.candidate? dropped).map fun digits => Decimal.mk digits (x.scale + dropped)
  found.getD ⟨x.whole, x.scale⟩

end Binary

end Cadence
