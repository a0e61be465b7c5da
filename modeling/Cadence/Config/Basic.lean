import Cadence.Decimal.Layout

/-!
# Retry configurations

A retry schedule as plain data: a pattern of delays and what is done to it. Times are whole
milliseconds.

## Main definitions

* `Backoff` — the patterns of delays
* `Jitter` — the random times that are added
* `Config` — a configuration
* `Config.ofBackoff` and the functions beside it — building a configuration step by step
-/

namespace Cadence

/-- A pattern of delays. -/
inductive Backoff where
  /-- The same delay every time. -/
  | spaced (delay : UInt64)
  /-- Delays that grow by `factor` times the first one. -/
  | linear (seed : UInt64) (factor : Float)
  /-- Delays that grow by a factor. -/
  | exponential (seed : UInt64) (factor : Float)
  /-- Delays each of which is the sum of the two before it. -/
  | fibonacci (seed : UInt64)
  /-- A list of delays, after which there are no more. -/
  | durations (delays : List UInt64)
  /-- Random delays up to three times the one before, between two bounds. -/
  | decorrelated (low high : UInt64)
  /-- Random delays that follow a smooth curve. -/
  | smoothDecorrelated (median : UInt64)
  /-- No delays. -/
  | forever
deriving BEq

/-- Random times that are added to delays. -/
inductive Jitter where
  /-- Between two ends. -/
  | between (low high : UInt64)
  /-- From nothing up to a fraction of the delay. -/
  | proportional (factor : Float)
deriving BEq

/-- A retry schedule as plain data. -/
structure Config where
  /-- The pattern of delays. -/
  backoff : Backoff
  /-- The largest number of runs after the first. -/
  maxRetries : Option UInt32
  /-- The limit of each delay. -/
  maxDelay : Option UInt64
  /-- The limit of the sum of the delays. -/
  maxCumulativeDelay : Option UInt64
  /-- The random times that are added to delays. -/
  jitter : Option Jitter
  /-- Whether the second run follows at once. -/
  noDelayOnFirstRetry : Bool
  /-- The seed of a source of randomness of its own. Without one the shared source is used. -/
  seed : Option UInt64
deriving BEq

namespace Config

/-- The configuration of a pattern of delays with nothing done to it. -/
def ofBackoff (backoff : Backoff) : Config := ⟨backoff, none, none, none, none, false, none⟩

/-- Limits the number of runs after the first. -/
def withMaxRetries (retries : UInt32) (c : Config) : Config := { c with maxRetries := some retries }

/-- Limits each delay. -/
def withMaxDelay (limit : UInt64) (c : Config) : Config := { c with maxDelay := some limit }

/-- Limits the sum of the delays. -/
def withMaxCumulativeDelay (limit : UInt64) (c : Config) : Config :=
  { c with maxCumulativeDelay := some limit }

/-- Adds random times to the delays. -/
def withJitter (jitter : Jitter) (c : Config) : Config := { c with jitter := some jitter }

/-- Lets the second run follow at once. -/
def withNoDelayOnFirstRetry (c : Config) : Config := { c with noDelayOnFirstRetry := true }

/-- Uses a source of randomness of its own. -/
def withSeed (seed : UInt64) (c : Config) : Config := { c with seed := some seed }

end Config

end Cadence
