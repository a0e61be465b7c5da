import Cadence.Expr.Basic
import Cadence.Record.Run
import Cadence.Schedule.DryRun

/-!
# Schedules as records

The record of a schedule expression has its parameters and the records of its parts. Sources of
randomness and clocks are left out of it.

## Main definitions

* `Expr.record` — an expression as a record
* `Expr.gatedRecord` — an expression with a test of the outcomes
* `DryRun.record`, `DryRun.delaysRecord` — a dry run of an expression under way
-/

namespace Cadence

/-- An expression as a record. -/
def Expr.record : Expr → String
  | once => "Once"
  | forever => "Forever"
  | recurs times => Record.fields "Recurs" [("times", toString times)]
  | spaced delay => Record.fields "Spaced" [("delay", delay.record)]
  | linear seed factor =>
    Record.fields "Linear" [("seed", seed.record), ("factor", Record.number.text factor)]
  | exponential seed factor =>
    Record.fields "Exponential" [("seed", seed.record), ("factor", Record.number.text factor)]
  | fibonacci seed => Record.fields "Fibonacci" [("seed", seed.record)]
  | fromDurations delays =>
    Record.fields "FromDurations" [("delays", Record.list (delays.map Duration.record))]
  | decorrelated a b _ =>
    Record.openFields "Decorrelated" [("min", (min a b).record), ("max", (max a b).record)]
  | smoothDecorrelated median _ =>
    Record.openFields "SmoothDecorrelated" [("median", median.record)]
  | fixed interval _ => Record.openFields "Fixed" [("interval", interval.record)]
  | windowed interval _ => Record.openFields "Windowed" [("interval", interval.record)]
  | onOccasion _ _ => "OnOccasion"
  | union l r => Record.fields "Union" [("left", l.record), ("right", r.record)]
  | intersect l r => Record.fields "Intersect" [("left", l.record), ("right", r.record)]
  | andThen first second =>
    Record.fields "Then" [("first", first.record), ("second", second.record)]
  | maxDelay inner limit =>
    Record.fields "MaxDelay" [("inner", inner.record), ("cap", limit.record)]
  | maxCumulativeDelay inner limit =>
    Record.fields "MaxCumulativeDelay" [("inner", inner.record), ("cap", limit.record)]
  | noDelayOnFirstRetry inner => Record.fields "NoDelayOnFirstRetry" [("inner", inner.record)]
  | jitter inner _ _ => Record.openFields "Jitter" [("inner", inner.record)]
  | boxed inner => Record.openFields "Boxed" [("inner", inner.record)]

/-- An expression with a test of the outcomes that must have the value `wanted`. -/
def Expr.gatedRecord (e : Expr) (wanted : Bool) : String :=
  Record.openFields "RecurWhile" [("inner", e.record), ("continue_when", Record.bool wanted)]

/-- The state of a boxed schedule, which shows nothing. -/
def Record.boxedState : String := "BoxedState(..)"

namespace DryRun

/-- A dry run of an expression under way. -/
def record {e : Expr} (r : DryRun e.schedule) : String :=
  Record.openFields "Decisions" [
    ("schedule", e.record),
    ("context", r.context.record),
    ("finished", Record.bool r.finished)]

/-- A dry run of an expression under way that yields delays. -/
def delaysRecord {e : Expr} (r : DryRun e.schedule) : String :=
  Record.fields "Delays" [("decisions", r.record)]

end DryRun

end Cadence
