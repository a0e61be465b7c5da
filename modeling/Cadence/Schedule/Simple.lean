import Cadence.Duration.Fractional
import Cadence.Schedule.Basic

/-!
# Schedules that need no source

The delays of these schedules are fixed in advance: they follow from the number of decisions made so
far, or from the delays before them.

## Main definitions

* `Schedule.once`, `forever`, `recurs` — no delays, and a fixed number of runs
* `Schedule.spaced`, `linear`, `exponential` — the same delay, or growing ones, without end
* `Schedule.fibonacci` — every delay the sum of the two before it
* `Schedule.fromDurations` — a list of delays

## Implementation notes

`fibonacci` keeps its last delays in its state and pays no attention to the context. All the others
here decide from the context alone.
-/

namespace Cadence

/-- `base` to the power `n`, by squaring: the factors are multiplied from the lowest binary digit of
the exponent upwards, and each square is the square of the one before. -/
def powBySquaring (base : Float) (n : Nat) : Float :=
  go base 1.0 n
where
  /-- The product of `acc` and `base` to the power `n`. -/
  go (base acc : Float) (n : Nat) : Float :=
    let acc := if n % 2 = 1 then acc * base else acc
    if n / 2 = 0 then acc else go (base * base) acc (n / 2)
  termination_by n

/-- The largest exponent an exponential delay is computed with. -/
def maxExponent : Nat := 2147483647

namespace Schedule

variable {σ : Type}

/-- No second run. -/
def once : Schedule σ := ofContext fun _ => .complete

/-- Always a next run, at once. -/
def forever : Schedule σ := ofContext fun _ => .runAgain

/-- A given number of further runs, each at once. -/
def recurs (times : Nat) : Schedule σ :=
  ofContext fun c => if c.iteration < times then .runAgain else .complete

/-- Always a next run, after the same delay. -/
def spaced (delay : Duration) : Schedule σ := ofContext fun _ => .runAfter delay

/-- The delay that grows by `seed` times `factor` with every decision before it. -/
def linearDelay (seed : Duration) (factor : Float) (iteration : Nat) : Duration :=
  seed + seed.scale (factor * Float.ofNat iteration)

/-- Always a next run, after a delay that grows by equal amounts. -/
def linear (seed : Duration) (factor : Float) : Schedule σ :=
  ofContext fun c => .runAfter (linearDelay seed factor c.iteration)

/-- The delay that grows by `factor` with every decision before it. -/
def exponentialDelay (seed : Duration) (factor : Float) (iteration : Nat) : Duration :=
  seed.scale (powBySquaring factor (min iteration maxExponent))

/-- Always a next run, after a delay that grows by a factor. -/
def exponential (seed : Duration) (factor : Float) : Schedule σ :=
  ofContext fun c => .runAfter (exponentialDelay seed factor c.iteration)

/-- Always a next run, after the sum of the two delays before; the first two are `seed`. The state
is the delay before and the one that comes next. -/
def fibonacci (seed : Duration) : Schedule σ where
  State := Duration × Duration
  start := (0, seed)
  step state _ world := ⟨.runAfter state.2, (state.2, state.1 + state.2), world⟩

/-- A next run for each delay of the list, in order. -/
def fromDurations (delays : List Duration) : Schedule σ :=
  ofContext fun c =>
    match delays[c.iteration]? with
    | some delay => .runAfter delay
    | none => .complete

end Schedule

end Cadence
