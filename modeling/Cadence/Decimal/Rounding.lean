/-!
# Rounding a quotient

The quotient of two natural numbers, rounded to the nearest whole number. A quotient halfway
between two whole numbers goes to the even one.

## Main results

* `roundDiv_le`, `le_roundDiv` — the rounded quotient is within half a unit of the exact one
* `roundDiv_mul_self` — a whole quotient is kept
-/

namespace Cadence

/-- `num / den` rounded to the nearest whole number, a half going to the even neighbour. -/
def roundDiv (num den : Nat) : Nat :=
  let whole := num / den
  let twice := 2 * (num % den)
  if twice < den then whole
  else if den < twice then whole + 1
  else if whole % 2 = 0 then whole
  else whole + 1

/-- Rounding adds at most half a unit. -/
theorem roundDiv_le {num den : Nat} : 2 * den * roundDiv num den ≤ 2 * num + den := by
  have hmod : den * (num / den) + num % den = num := Nat.div_add_mod num den
  have hsucc : den * (num / den + 1) = den * (num / den) + den := Nat.mul_succ _ _
  rw [Nat.mul_assoc, roundDiv]
  split
  · omega
  · split
    · omega
    · split <;> omega

/-- Rounding takes away at most half a unit. -/
theorem le_roundDiv {num den : Nat} (h : 0 < den) : 2 * num ≤ 2 * den * roundDiv num den + den := by
  have hmod : den * (num / den) + num % den = num := Nat.div_add_mod num den
  have hlt : num % den < den := Nat.mod_lt num h
  have hsucc : den * (num / den + 1) = den * (num / den) + den := Nat.mul_succ _ _
  rw [Nat.mul_assoc, roundDiv]
  split
  · omega
  · split
    · omega
    · split <;> omega

/-- A quotient that is already whole is kept. -/
theorem roundDiv_mul_self {n den : Nat} (h : 0 < den) : roundDiv (n * den) den = n := by
  simp [roundDiv, Nat.mul_div_cancel n h, h]

end Cadence
