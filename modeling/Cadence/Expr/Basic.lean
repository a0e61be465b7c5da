import Cadence.Schedule.Adjust
import Cadence.Schedule.Anchored
import Cadence.Schedule.Combine
import Cadence.Schedule.Decorrelated
import Cadence.Schedule.Simple
import Cadence.Sources.Basic

/-!
# Schedule expressions

A schedule written down as a tree: leaves with their parameters, sources of randomness and clocks by
name, and the ways of combining and adjusting schedules.

## Main definitions

* `Expr` — the expressions
* `Expr.schedule` — the schedule an expression stands for, in the world of named sources
-/

namespace Cadence

/-- A schedule as a tree. -/
inductive Expr where
  | once
  | forever
  | recurs (times : Nat)
  | spaced (delay : Duration)
  | linear (seed : Duration) (factor : Float)
  | exponential (seed : Duration) (factor : Float)
  | fibonacci (seed : Duration)
  | fromDurations (delays : List Duration)
  | decorrelated (a b : Duration) (source : SourceName)
  | smoothDecorrelated (median : Duration) (source : SourceName)
  | fixed (interval : Duration) (clock : Nat)
  | windowed (interval : Duration) (clock : Nat)
  | onOccasion (occasion : Occasion) (clock : Nat)
  | union (l r : Expr)
  | intersect (l r : Expr)
  | andThen (first second : Expr)
  | maxDelay (inner : Expr) (limit : Duration)
  | maxCumulativeDelay (inner : Expr) (limit : Duration)
  | noDelayOnFirstRetry (inner : Expr)
  | jitter (inner : Expr) (spread : Spread) (source : SourceName)
  | boxed (inner : Expr)

namespace Expr

/-- The schedule that an expression stands for. -/
def schedule : Expr → Schedule Sources
  | once => .once
  | forever => .forever
  | recurs times => .recurs times
  | spaced delay => .spaced delay
  | linear seed factor => .linear seed factor
  | exponential seed factor => .exponential seed factor
  | fibonacci seed => .fibonacci seed
  | fromDurations delays => .fromDurations delays
  | decorrelated a b source => .decorrelated a b (Sources.uniformDuration source)
  | smoothDecorrelated median source => .smoothDecorrelated median (Sources.unit source)
  | fixed interval clock => .fixed interval (Sources.now clock)
  | windowed interval clock => .windowed interval (Sources.now clock)
  | onOccasion occasion clock => .onOccasion occasion (Sources.now clock)
  | union l r => l.schedule.union r.schedule
  | intersect l r => l.schedule.intersect r.schedule
  | andThen first second => first.schedule.andThen second.schedule
  | maxDelay inner limit => inner.schedule.maxDelay limit
  | maxCumulativeDelay inner limit => inner.schedule.maxCumulativeDelay limit
  | noDelayOnFirstRetry inner => inner.schedule.noDelayOnFirstRetry
  | jitter inner spread source => inner.schedule.jitter spread (Sources.uniformDuration source)
  | boxed inner => inner.schedule.boxed

end Expr

end Cadence
