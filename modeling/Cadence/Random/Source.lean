import Cadence.Duration.Fractional

/-!
# Sources of randomness

A source hands out the words of a stream one after the other. Every draw takes exactly one word; a
draw from a range that holds a single value takes none.

## Main definitions

* `RandomSource` — a stream and the place up to which it was read
* `SeedStream` — the streams of all seeds
* `RandomSource.seeded` — the source of a seed
* `RandomSource.unit` — a number from zero up to one
* `RandomSource.uniform`, `uniformDuration` — a number or a duration from a range

## Implementation notes

The stream is an arbitrary function, so a statement about every source holds whatever values are
drawn. How a seed is spread into a stream is left to whoever runs a schedule.
-/

namespace Cadence

/-- A stream of words and the number of words taken from it. -/
structure RandomSource where
  /-- The words of the stream. -/
  stream : Nat → UInt64
  /-- How many of them were taken. -/
  position : Nat

/-- The words of the stream that each seed stands for. -/
abbrev SeedStream : Type := UInt64 → Nat → UInt64

namespace RandomSource

/-- The source of a seed. -/
def seeded (streams : SeedStream) (seed : UInt64) : RandomSource := ⟨streams seed, 0⟩

instance : Inhabited RandomSource := ⟨⟨fun _ => 0, 0⟩⟩

/-- The number from zero up to, but not including, one whose first 53 binary digits are the upper
bits of a word. -/
def fraction (word : UInt64) : Float := (word >>> 11).toFloat * (1.0 / 9007199254740992.0)

/-- The source with `n` words taken. -/
def skip (n : Nat) (r : RandomSource) : RandomSource := { r with position := r.position + n }

/-- Draws a number from zero up to, but not including, one. -/
def unit (r : RandomSource) : Float × RandomSource :=
  (fraction (r.stream r.position), r.skip 1)

/-- Draws a number between two ends, given in either order. Equal ends take no word. -/
def uniform (a b : Float) (r : RandomSource) : Float × RandomSource :=
  if a == b then (a, r)
  else
    let low := if a < b then a else b
    let high := if a < b then b else a
    let drawn := r.unit
    (low + (high - low) * drawn.1, drawn.2)

/-- Draws a duration between two ends, given in either order. Equal ends take no word, and neither
do ends that are the same number of seconds in floating point. -/
def uniformDuration (a b : Duration) (r : RandomSource) : Duration × RandomSource :=
  if a = b then (a, r)
  else
    let drawn := r.uniform a.toSecondsFloat b.toSecondsFloat
    (Duration.ofSecondsFloat drawn.1, drawn.2)

end RandomSource

end Cadence
