import Cadence.Duration.Fractional
import Cadence.Schedule.Basic

/-!
# Decorrelated delays

With plain growing delays, clients that fail together also come back together. Here each delay is
drawn at random and depends on the one before, so that clients which start together spread apart.

## Main definitions

* `Schedule.decorrelated` — each delay is drawn up to three times the delay before
* `Schedule.smoothDecorrelated` — delays follow the slope of a smooth curve at random points

## Implementation notes

Both schedules are given the function that draws: `draw low high` yields a duration from a range,
`unit` a number from zero up to one.
-/

namespace Cadence.Schedule

variable {σ : Type}

/-- Always a next run, after a delay drawn between the smaller bound and three times the delay
before, but at most the larger bound. The state is the delay before, at first the smaller bound. -/
def decorrelated (a b : Duration) (draw : Duration → Duration → σ → Duration × σ) : Schedule σ where
  State := Duration
  start := min a b
  step previous _ world :=
    let low := min a b
    let high := max (min (max b a) (previous.scale 3.0)) low
    let drawn := draw low high world
    ⟨.runAfter drawn.1, drawn.1, drawn.2⟩

/-- The height of the curve at `t`, whose rises between neighbouring points are the delays. -/
def smoothCurve (t : Float) : Float := t.exp2 * (4.0 * t).sqrt.tanh

/-- Always a next run, after `median` times the rise of the curve since the last point, scaled so
that the first delay has the given median. The points are drawn, one from each unit interval in
turn. Where the curve is beyond all numbers the delay is the longest one. The state is the height of
the curve at the last point, at first zero. -/
def smoothDecorrelated (median : Duration) (unit : σ → Float × σ) : Schedule σ where
  State := Float
  start := 0.0
  step previous context world :=
    let drawn := unit world
    let height := smoothCurve (Float.ofNat context.iteration + drawn.1)
    if height.isFinite then
      ⟨.runAfter (median.scale ((height - previous) * (1.0 / 1.4))), height, drawn.2⟩
    else
      ⟨.runAfter .longest, previous, drawn.2⟩

end Cadence.Schedule
