import Cadence.Schedule.Basic
import Cadence.Time.Occasion

/-!
# Schedules that follow a clock

Two schedules keep to the boundaries of equal intervals, counted from their first decision, and one
waits for the next time of a recurring occasion. Each reads its clock once for every decision. An
interval of no length has no boundaries: the next run then follows at once, and the clock is not
read.

## Main definitions

* `untilBoundary` — the time left to the next boundary
* `Schedule.windowed` — always waits for the next boundary
* `Schedule.fixed` — waits for the next boundary, unless it is late by more than an interval
* `Schedule.onOccasion` — waits for the next time of an occasion

## Implementation notes

The schedules are given the function `now` that reads their clock.
-/

namespace Cadence

/-- The time from `now` to the next of the instants that follow `start` at multiples of `interval`.
On such an instant a whole interval is left. A time of `2 ^ 64` nanoseconds or more is cut off. -/
def untilBoundary (start now : Instant) (interval : Duration) : Duration :=
  let left := interval.nanos - (start.elapsed now).nanos % interval.nanos
  Duration.ofNanos (min left 18446744073709551615)

/-- What a schedule with fixed boundaries keeps: where they begin, and when its last decision
planned the next run. -/
structure Anchor where
  /-- The instant of the first decision. -/
  start : Instant
  /-- The instant for which the next run is planned. -/
  planned : Instant
deriving DecidableEq

namespace Schedule

variable {σ : Type}

/-- Always a next run, at the next boundary. The state is the instant of the first decision. -/
def windowed (interval : Duration) (now : σ → Instant × σ) : Schedule σ where
  State := Option Instant
  start := none
  step state _ world :=
    if interval.isZero then ⟨.runAgain, state, world⟩
    else
      let reading := now world
      match state with
      | none => ⟨.runAfter interval, some reading.1, reading.2⟩
      | some start => ⟨.runAfter (untilBoundary start reading.1 interval), some start, reading.2⟩

/-- Always a next run, at the next boundary. A run that took so long that its decision is made more
than an interval after the instant planned for it is followed by the next one at once. -/
def fixed (interval : Duration) (now : σ → Instant × σ) : Schedule σ where
  State := Option Anchor
  start := none
  step state _ world :=
    if interval.isZero then ⟨.runAgain, state, world⟩
    else
      let reading := now world
      match state with
      | none => ⟨.runAfter interval, some ⟨reading.1, reading.1.after interval⟩, reading.2⟩
      | some anchor =>
        if anchor.planned.after interval < reading.1 then
          ⟨.runAgain, some ⟨anchor.start, reading.1⟩, reading.2⟩
        else
          let delay := untilBoundary anchor.start reading.1 interval
          ⟨.runAfter delay, some ⟨anchor.start, reading.1.after delay⟩, reading.2⟩

/-- A next run at the next time of an occasion, as long as there is one in the range of time. -/
def onOccasion (occasion : Occasion) (now : σ → Instant × σ) : Schedule σ where
  State := Unit
  start := ()
  step _ _ world :=
    let reading := now world
    match occasion.next? reading.1 with
    | some time => ⟨.runAfter (reading.1.elapsed time), (), reading.2⟩
    | none => ⟨.complete, (), reading.2⟩

end Schedule

end Cadence
