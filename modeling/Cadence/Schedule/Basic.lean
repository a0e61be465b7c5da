import Cadence.Context

/-!
# Schedules

A schedule decides, after each run, whether there is a next one. It is a machine: from its own state
and the context of the run it makes a decision and passes to its next state. On the way it may draw
from sources of randomness and read clocks, which belong to no schedule in particular and are shared
by all that name them. They are the *world* in which schedules are stepped.

## Main definitions

* `Step` — the result of stepping a schedule once
* `Schedule` — a machine that decides, over an arbitrary world
* `Schedule.ofContext` — a schedule that decides from the context alone
* `Schedule.boxed` — a schedule whose state is held in a place that can be empty

## Implementation notes

The type of the world is a parameter, and nothing is assumed of it: a schedule that uses a source of
randomness is given the function that draws from it. A statement about every schedule is therefore a
statement about every way of drawing and of telling the time.
-/

namespace Cadence

/-- The result of stepping a schedule with states `τ` in a world `σ`. -/
@[ext]
structure Step (τ σ : Type) where
  /-- What happens after the run. -/
  decision : Decision
  /-- The next state of the schedule. -/
  state : τ
  /-- The world after the step. -/
  world : σ

/-- A machine that decides what happens after each run, in a world `σ`. -/
structure Schedule (σ : Type) where
  /-- What the schedule keeps between two decisions. -/
  State : Type
  /-- The state of a fresh run. -/
  start : State
  /-- The decision after the run that the context describes. -/
  step : State → Context → σ → Step State σ

namespace Schedule

variable {σ : Type}

/-- The schedule that decides from the context alone. -/
def ofContext (decide : Context → Decision) : Schedule σ where
  State := Unit
  start := ()
  step _ context world := ⟨decide context, (), world⟩

/-- The schedule with its state held in a place that can be empty. A step takes the state out and
puts the next one back; with an empty place the work is complete. -/
def boxed (s : Schedule σ) : Schedule σ where
  State := Option s.State
  start := some s.start
  step
    | none, _, world => ⟨.complete, none, world⟩
    | some state, context, world =>
      let made := s.step state context world
      ⟨made.decision, some made.state, made.world⟩

end Schedule

end Cadence
