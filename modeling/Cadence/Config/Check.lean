import Cadence.Config.Basic
import Cadence.Record.Basic

/-!
# Checking a configuration

A configuration can ask for things that make no sense: a negative factor, no delays at all where a
list of them is wanted, a range with its ends exchanged, or a schedule that never ends.

## Main definitions

* `ConfigError` — what can be wrong, with its `message` and its `record`
* `Config.validate` — the first thing that is wrong with a configuration
-/

namespace Cadence

/-- What is wrong with a configuration. -/
inductive ConfigError where
  /-- Nothing bounds the number of runs. -/
  | unbounded
  /-- A factor is out of its range or not finite. -/
  | invalidFactor (field : String) (value : Float)
  /-- A list of delays is empty. -/
  | emptyDurations
  /-- The range of random times ends before it begins. -/
  | invalidJitterRange (low high : UInt64)

namespace ConfigError

/-- What the error says. -/
def message : ConfigError → String
  | unbounded =>
    "retry config is unbounded: set max_retries, max_cumulative_delay_ms or a durations backoff"
  | invalidFactor field value => "invalid " ++ field ++ ": " ++ NumberFormat.plain.text value
  | emptyDurations => "durations backoff has no delays"
  | invalidJitterRange low high =>
    "jitter min_ms " ++ toString low ++ " exceeds max_ms " ++ toString high

/-- The error as a record. -/
def record : ConfigError → String
  | unbounded => "Unbounded"
  | invalidFactor field value =>
    Record.fields "InvalidFactor"
      [("field", Record.quote field), ("value", Record.number.text value)]
  | emptyDurations => "EmptyDurations"
  | invalidJitterRange low high =>
    Record.fields "InvalidJitterRange" [("min_ms", toString low), ("max_ms", toString high)]

end ConfigError

/-- Checks that a factor is finite and not negative, and not zero unless that is allowed. -/
def checkFactor (field : String) (value : Float) (zeroAllowed : Bool) : Except ConfigError Unit :=
  if value.isFinite && (if zeroAllowed then 0.0 ≤ value else 0.0 < value) then .ok ()
  else .error (.invalidFactor field value)

/-- Checks the parameters of a pattern of delays. -/
def Backoff.validate : Backoff → Except ConfigError Unit
  | linear _ factor => checkFactor "linear factor" factor true
  | exponential _ factor => checkFactor "exponential factor" factor false
  | durations [] => .error .emptyDurations
  | _ => .ok ()

/-- Checks the range of random times. -/
def Jitter.validate : Jitter → Except ConfigError Unit
  | between low high => if high < low then .error (.invalidJitterRange low high) else .ok ()
  | proportional factor => checkFactor "jitter factor" factor true

/-- Whether a pattern of delays comes to an end. -/
def Backoff.isFinite : Backoff → Bool
  | durations _ => true
  | _ => false

namespace Config

/-- Whether something bounds the number of runs or the sum of the delays. -/
def isBounded (c : Config) : Bool :=
  c.maxRetries.isSome || c.maxCumulativeDelay.isSome || c.backoff.isFinite

/-- Checks a configuration: first the pattern of delays, then the random times, and last that it is
bounded. -/
def validate (c : Config) : Except ConfigError Unit := do
  c.backoff.validate
  match c.jitter with
  | some jitter => jitter.validate
  | none => .ok ()
  if c.isBounded then .ok () else .error .unbounded

end Config

end Cadence
