import Cadence.Schedule.Basic

/-!
# Policies

A policy decides like a schedule, but it also sees the outcome of the run it decides on: the value
of a success or the error of a failure. Every schedule is a policy that does not look at outcomes,
and a schedule can be gated by a test of the outcome.

## Main definitions

* `Policy` — a machine that decides from the context and the outcome
* `Schedule.policy` — a schedule as a policy
* `Schedule.gated` — a schedule that is complete as soon as a test of the outcome comes out wrong
* `Schedule.recurWhile`, `Schedule.recurUntil` — the two ways to use a test
-/

namespace Cadence

/-- A machine that decides what happens after each run from its outcome, in a world `σ`. Runs
succeed with values in `α` and fail with errors in `ε`. -/
structure Policy (σ α ε : Type) where
  /-- What the policy keeps between two decisions. -/
  State : Type
  /-- The state of a fresh run. -/
  start : State
  /-- The decision after the run that the context describes and that had the given outcome. -/
  step : State → Context → Except ε α → σ → Step State σ

namespace Schedule

variable {σ α ε : Type}

/-- A schedule as a policy that does not look at outcomes. -/
def policy (s : Schedule σ) : Policy σ α ε where
  State := s.State
  start := s.start
  step state context _ world := s.step state context world

/-- The decisions of `s` for outcomes on which `test` has the value `wanted`. On any other the work
is complete, and `s` is not stepped. -/
def gated (s : Schedule σ) (test : Except ε α → Bool) (wanted : Bool) : Policy σ α ε where
  State := s.State
  start := s.start
  step state context outcome world :=
    if test outcome == wanted then s.step state context world else ⟨.complete, state, world⟩

/-- The decisions of `s` as long as `test` holds of the outcomes. -/
def recurWhile (s : Schedule σ) (test : Except ε α → Bool) : Policy σ α ε := s.gated test true

/-- The decisions of `s` until `test` holds of an outcome. -/
def recurUntil (s : Schedule σ) (test : Except ε α → Bool) : Policy σ α ε := s.gated test false

end Schedule

end Cadence
