import Cadence.Decimal.Rounding
import Cadence.Duration.Basic

/-!
# Durations as fractions of a second

Lengths of time are also given and shown as binary floating-point numbers of seconds or
milliseconds. A floating-point number that is no length of time is read as the nearest one: a
negative number and a number that is not one as no time at all, a number that is too large as the
longest duration.

## Main definitions

* `Duration.ofSecondsFloat`, `ofMillisFloat` — the nearest duration to a floating-point number
* `Duration.toSecondsFloat`, `toMillisFloat` — a duration as a floating-point number
* `Duration.scale` — a duration times a floating-point factor

## Implementation notes

A finite number is `m * 2 ^ e` for whole `m` and `e`, so the nearest number of nanoseconds is the
rounded quotient of two natural numbers. No floating-point operation takes part, and the result is
exact.
-/

namespace Cadence.Duration

/-- The nanoseconds in `m * 2 ^ e` seconds, to the nearest one, a half going to the even one. -/
def roundedNanos (m : Nat) (e : Int) : Nat :=
  roundDiv (m * nanosPerSecond * Nat.pow 2 e.toNat) (Nat.pow 2 (-e).toNat)

/-- The duration nearest to `x` seconds. -/
def ofSecondsFloat (x : Float) : Duration :=
  match x.toModel.unpack with
  | .finite .positive m e _ => ofNanos (roundedNanos m e)
  | .infinity .positive => longest
  | _ => zero

/-- The duration nearest to `x` milliseconds, where `x` is first divided by a thousand. -/
def ofMillisFloat (x : Float) : Duration := ofSecondsFloat (x / 1000.0)

/-- The length in seconds: the whole seconds and the rest are converted each on their own. -/
def toSecondsFloat (d : Duration) : Float :=
  Float.ofNat d.seconds + Float.ofNat d.subsecond / 1000000000.0

/-- The length in milliseconds. -/
def toMillisFloat (d : Duration) : Float := d.toSecondsFloat * 1000.0

/-- A duration times a factor. A factor that is negative, or not a number, counts as zero. -/
def scale (d : Duration) (factor : Float) : Duration :=
  if factor.isNaN || factor ≤ 0.0 then zero else ofSecondsFloat (d.toSecondsFloat * factor)

end Cadence.Duration
