import Cadence.Record.Run

/-!
# Expectations on a decision

Checks for the tests of a schedule: that a decision ends the work, or that it goes on, possibly
after an exact delay. A check that fails says what was expected.

## Main definitions

* `Unexpected` — how a check fails
* `Decision.expectComplete`, `expectContinues`, `expectDelay` — the checks
-/

namespace Cadence

/-- How a check of a decision fails. -/
inductive Unexpected where
  /-- The decision continues but should be complete. -/
  | continues (decision : Decision)
  /-- The decision is complete but should continue. -/
  | complete
  /-- The decision is complete but should continue after `delay`. -/
  | completeBefore (delay : Duration)
  /-- The decision continues after another delay than `expected`. -/
  | otherDelay (expected actual : Duration)
deriving DecidableEq

/-- What a failed check says. -/
def Unexpected.message : Unexpected → String
  | continues decision => "Expected Complete, got " ++ decision.record
  | complete => "Expected the schedule to continue, got Complete"
  | completeBefore delay =>
    "Expected the schedule to continue after " ++ delay.record ++ ", got Complete"
  | otherDelay _ _ => "assertion failed"

namespace Decision

/-- Checks that a decision ends the work. -/
def expectComplete : Decision → Except Unexpected Unit
  | complete => .ok ()
  | other => .error (.continues other)

/-- Checks that a decision continues. -/
def expectContinues : Decision → Except Unexpected Unit
  | complete => .error .complete
  | _ => .ok ()

/-- Checks that a decision continues after exactly `expected`, where running again at once counts as
no delay. -/
def expectDelay (expected : Duration) : Decision → Except Unexpected Unit
  | complete => .error (.completeBefore expected)
  | other => if other.delay = expected then .ok () else .error (.otherDelay expected other.delay)

end Decision

end Cadence
