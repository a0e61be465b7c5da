import Cadence.Duration.Basic

/-!
# The text of a duration

A duration is written in the largest of the units seconds, milliseconds, microseconds and
nanoseconds of which it holds at least one: `1.5s`, `250ms`, `1.5µs`, `0ns`. The digits after the
point are exact and end with the last one that is not zero.

## Main definitions

* `fixedPoint` — a whole number of small units, written in a unit that is a power of ten larger
* `Duration.text` — the text of a duration
-/

namespace Cadence

/-- `n` written with zeros in front up to `width` digits. -/
def paddedDigits (width n : Nat) : List Char :=
  let digits := Nat.toDigits 10 n
  List.replicate (width - digits.length) '0' ++ digits

/-- A list of digits without the zeros at its end. -/
def dropTrailingZeros (digits : List Char) : List Char :=
  (digits.reverse.dropWhile (· == '0')).reverse

/-- `n / 10 ^ places` as an exact decimal, without zeros at the end of the fraction and without a
point if nothing follows it. -/
def fixedPoint (places n : Nat) : String :=
  let one := Nat.pow 10 places
  let whole := toString (n / one)
  match dropTrailingZeros (paddedDigits places (n % one)) with
  | [] => whole
  | fraction => whole ++ "." ++ String.ofList fraction

/-- The text of a duration, in the largest unit of which it holds at least one. -/
def Duration.text (d : Duration) : String :=
  if 1000000000 ≤ d.nanos then fixedPoint 9 d.nanos ++ "s"
  else if 1000000 ≤ d.nanos then fixedPoint 6 d.nanos ++ "ms"
  else if 1000 ≤ d.nanos then fixedPoint 3 d.nanos ++ "µs"
  else toString d.nanos ++ "ns"

end Cadence
