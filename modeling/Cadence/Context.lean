import Cadence.Decision.Basic

/-!
# The context of a run

A schedule decides from its own state and from the context of the run: how many decisions were made
so far, the last of them, and the sum of the delays. Both counts stay at their largest value once
they have reached it.

## Main definitions

* `Context` — what a schedule may know about the run
* `Context.initial`, `Context.next` — the context of a fresh run, and after one more decision
* `Context.since` — the context as a part of the run that began later sees it
* `Context.status` — whether the run has not started, goes on or is complete
-/

namespace Cadence

/-- The largest number of decisions and of attempts that is counted. -/
def maxCount : Nat := 4294967295

/-- One more, unless that is more than is counted. -/
def countUp (n : Nat) : Nat := min (n + 1) maxCount

theorem countUp_le (n : Nat) : countUp n ≤ maxCount := Nat.min_le_right ..

theorem countUp_of_lt {n : Nat} (h : n < maxCount) : countUp n = n + 1 := Nat.min_eq_left h

/-- What a schedule may know about the run it decides on. -/
@[ext]
structure Context where
  /-- The number of decisions made so far, as far as it is counted. -/
  iteration : Nat
  /-- The last decision. -/
  last : Option Decision
  /-- The sum of the delays of all decisions, cut off at the longest duration. -/
  elapsed : Duration
  /-- The number of decisions is counted up to `maxCount`. -/
  iteration_le : iteration ≤ maxCount
deriving DecidableEq

/-- How far a run has come. -/
inductive Status where
  /-- No decision was made. -/
  | notStarted
  /-- The last decision was to run again. -/
  | running
  /-- The last decision was that the work is complete. -/
  | completed
deriving DecidableEq

namespace Context

/-- The context of a run in which no decision was made. -/
def initial : Context := ⟨0, none, 0, Nat.zero_le _⟩

instance : Inhabited Context := ⟨initial⟩

/-- The context after one more decision. -/
def next (c : Context) (d : Decision) : Context where
  iteration := countUp c.iteration
  last := some d
  elapsed := c.elapsed + d.delay
  iteration_le := countUp_le c.iteration

/-- The context as a part of the run sees it that began at `origin`: what was counted up to there
is taken off, and the last decision shows only if it was made after that. -/
def since (c origin : Context) : Context where
  iteration := c.iteration - origin.iteration
  last := if origin.iteration < c.iteration then c.last else none
  elapsed := c.elapsed - origin.elapsed
  iteration_le := Nat.le_trans (Nat.sub_le ..) c.iteration_le

/-- The delay of the last decision, if it was to run again. -/
def lastDelay? (c : Context) : Option Duration := c.last.bind Decision.delay?

/-- Whether no decision was made. -/
def hasNotStarted (c : Context) : Bool := c.iteration == 0 && c.last.isNone

/-- How far the run has come, by its last decision. -/
def status (c : Context) : Status :=
  match c.last with
  | none => .notStarted
  | some .complete => .completed
  | some _ => .running

end Context

end Cadence
