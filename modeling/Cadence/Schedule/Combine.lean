import Cadence.Schedule.Basic

/-!
# Combining two schedules

Two schedules are run side by side, or one after the other.

## Main definitions

* `Schedule.union` — complete when either is; otherwise the shorter delay
* `Schedule.intersect` — complete when either is; otherwise the longer delay
* `Schedule.andThen` — the first until it is complete, then the second

## Implementation notes

Side by side, both schedules are stepped at every decision, the left one first, in the same context
and in one world. One after the other, the second schedule is started and stepped as soon as the
first is complete, in the same step, and sees the context since then.
-/

namespace Cadence.Schedule

variable {σ : Type}

/-- Both schedules side by side, their decisions merged by `merge`. -/
def sideBySide (merge : Decision → Decision → Decision) (l r : Schedule σ) : Schedule σ where
  State := l.State × r.State
  start := (l.start, r.start)
  step state context world :=
    let left := l.step state.1 context world
    let right := r.step state.2 context left.world
    ⟨merge left.decision right.decision, (left.state, right.state), right.world⟩

/-- Both schedules side by side, with the shorter of their delays. -/
def union (l r : Schedule σ) : Schedule σ := sideBySide .union l r

/-- Both schedules side by side, with the longer of their delays. -/
def intersect (l r : Schedule σ) : Schedule σ := sideBySide .intersect l r

/-- The state of two schedules one after the other, with states `τ` and `υ`. -/
inductive Stage (τ υ : Type) where
  /-- The first schedule is not complete. -/
  | first (state : τ)
  /-- The second schedule was started when the run had come to `origin`. -/
  | second (state : υ) (origin : Context)

/-- A step of the second schedule, which sees the context since its start. -/
def stepSecond {τ : Type} (s : Schedule σ) (state : s.State) (origin context : Context)
    (world : σ) : Step (Stage τ s.State) σ :=
  let made := s.step state (context.since origin) world
  ⟨made.decision, .second made.state origin, made.world⟩

/-- The first schedule until it is complete, then the second. -/
def andThen (a b : Schedule σ) : Schedule σ where
  State := Stage a.State b.State
  start := .first a.start
  step
    | .first state, context, world =>
      let made := a.step state context world
      if made.decision.isComplete then b.stepSecond b.start context context made.world
      else ⟨made.decision, .first made.state, made.world⟩
    | .second state origin, context, world => b.stepSecond state origin context world

end Cadence.Schedule
