import Cadence.Duration.Fractional
import Cadence.Schedule.Basic

/-!
# Adjusting the decisions of a schedule

Each of these schedules wraps another one and changes what it decides: delays are cut down, spread
at random or left out, and a run ends when its delays have used up a budget.

## Main definitions

* `Schedule.maxDelay` — no delay is longer than a limit
* `Schedule.maxCumulativeDelay` — the delays of a run add up to a limit at most
* `Schedule.noDelayOnFirstRetry` — the first decision asks for no delay
* `Schedule.jitter` — a random time is added to every delay
* `Spread` — the range from which that time is drawn
-/

namespace Cadence

/-- The range of the times that are added to delays. -/
inductive Spread where
  /-- Between two ends, given in either order. -/
  | between (low high : Duration)
  /-- From nothing up to a fraction of the delay. -/
  | proportional (factor : Float)

/-- The two ends of the range for a given delay. -/
def Spread.ends (delay : Duration) : Spread → Duration × Duration
  | between low high => (low, high)
  | proportional factor => (0, delay.scale factor)

namespace Schedule

variable {σ : Type}

/-- The decisions of `s`, their delays cut down to `limit`. -/
def maxDelay (s : Schedule σ) (limit : Duration) : Schedule σ where
  State := s.State
  start := s.start
  step state context world :=
    let made := s.step state context world
    { made with decision := made.decision.cap limit }

/-- The decisions of `s` until the delays of the run reach `limit` or the next delay would carry
them beyond it; then the work is complete. Once the limit is reached `s` is not stepped any more. -/
def maxCumulativeDelay (s : Schedule σ) (limit : Duration) : Schedule σ where
  State := s.State
  start := s.start
  step state context world :=
    if limit ≤ context.elapsed then ⟨.complete, state, world⟩
    else
      let made := s.step state context world
      match made.decision.delay? with
      | none => made
      | some delay =>
        if limit < context.elapsed + delay then { made with decision := .complete } else made

/-- The decisions of `s`, but if the first of a run is to run again, it is to do so at once. -/
def noDelayOnFirstRetry (s : Schedule σ) : Schedule σ where
  State := s.State
  start := s.start
  step state context world :=
    let made := s.step state context world
    if context.hasNotStarted && made.decision.continues then { made with decision := .runAgain }
    else made

/-- The decisions of `s`, with a random time added to every delay. Where the next run was to follow
at once it now follows after a delay. -/
def jitter (s : Schedule σ) (spread : Spread) (draw : Duration → Duration → σ → Duration × σ) :
    Schedule σ where
  State := s.State
  start := s.start
  step state context world :=
    let made := s.step state context world
    match made.decision.delay? with
    | none => made
    | some delay =>
      let ends := spread.ends delay
      let drawn := draw ends.1 ends.2 made.world
      ⟨.runAfter (delay + drawn.1), made.state, drawn.2⟩

end Schedule

end Cadence
