import Cadence.Config.Check
import Cadence.Expr.Basic

/-!
# The schedule of a configuration

A configuration that passes its checks stands for a schedule: the pattern of delays, changed step by
step in a fixed order.

## Main definitions

* `Backoff.expr` — the schedule expression of a pattern of delays
* `Config.expr` — the schedule expression of a configuration, without any checks
* `Config.build` — the checked schedule expression, with the source it draws on
-/

namespace Cadence

/-- The expression of a pattern of delays that draws on the named source. -/
def Backoff.expr (source : SourceName) : Backoff → Expr
  | spaced delay => .spaced (.ofMillis delay.toNat)
  | linear seed factor => .linear (.ofMillis seed.toNat) factor
  | exponential seed factor => .exponential (.ofMillis seed.toNat) factor
  | fibonacci seed => .fibonacci (.ofMillis seed.toNat)
  | durations delays => .fromDurations (delays.map fun delay => .ofMillis delay.toNat)
  | decorrelated low high => .decorrelated (.ofMillis low.toNat) (.ofMillis high.toNat) source
  | smoothDecorrelated median => .smoothDecorrelated (.ofMillis median.toNat) source
  | forever => .forever

/-- The spread of random times. -/
def Jitter.spread : Jitter → Spread
  | between low high => .between (.ofMillis low.toNat) (.ofMillis high.toNat)
  | proportional factor => .proportional factor

/-- An expression changed by `f` and boxed, or as it is if there is nothing to change it by. -/
def Expr.changed {α : Type} (f : Expr → α → Expr) (e : Expr) : Option α → Expr
  | none => e
  | some x => .boxed (f e x)

namespace Config

/-- The pattern of delays with the random times and the limit of each delay. -/
def delaysExpr (c : Config) (source : SourceName) : Expr :=
  let base : Expr := .boxed (c.backoff.expr source)
  let spread := base.changed (fun e jitter => .jitter e jitter.spread source) c.jitter
  spread.changed (fun e limit => .maxDelay e (.ofMillis limit.toNat)) c.maxDelay

/-- The expression of a configuration that draws on the named source: the pattern of delays, then
the random times, the limit of each delay, the second run at once, the number of runs and the limit
of the sum of the delays. -/
def expr (c : Config) (source : SourceName) : Expr :=
  let delays := c.delaysExpr source
  let eager := if c.noDelayOnFirstRetry then .boxed (.noDelayOnFirstRetry delays) else delays
  let counted := eager.changed (fun e retries => .union e (.recurs retries.toNat)) c.maxRetries
  counted.changed (fun e limit => .maxCumulativeDelay e (.ofMillis limit.toNat))
    c.maxCumulativeDelay

/-- The name of the source that a configuration draws on: a new source with its seed, or else the
shared one. -/
def addSource (c : Config) (streams : SeedStream) (sources : Sources) : SourceName × Sources :=
  match c.seed with
  | some seed => sources.addRandom (.seeded streams seed)
  | none => (.shared, sources)

/-- Checks a configuration and gives its expression, with the source it draws on. -/
def build (c : Config) (streams : SeedStream) (sources : Sources) :
    Except ConfigError (Expr × Sources) :=
  match c.validate with
  | .error e => .error e
  | .ok () =>
    let (source, sources) := c.addSource streams sources
    .ok (c.expr source, sources)

end Config

end Cadence
