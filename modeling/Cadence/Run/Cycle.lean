import Cadence.Policy
import Cadence.Run.Plan
import Cadence.Run.Session
import Cadence.Run.Trace

/-!
# One turn of a run

A run goes in turns. In each the effect is called, unless the session is cancelled; its plan and its
policy say what follows the outcome; and if the run goes on there is a sleep.

## Main definitions

* `Job` — an effect with the policy and the plan for its outcomes
* `Outside` — when somebody else cancels the session
* `Runner` — how to sleep, whom to tell of decisions and who else may cancel the session
* `Cycle` — where a run stands between two turns
* `Cycle.checked`, `Cycle.decide`, `Cycle.call`, `Cycle.sleep` — the parts of a turn
* `Cycle.turn` — a turn

## Implementation notes

An effect is a function from the number of calls made before to the next call, so it may have any
outcomes whatever. It is the same with observers, and with those outside a run who share its
session. All of them can cancel it, and so can the sleeper. A run looks at its session at the check
before a call and in a sleep only, so it is enough to know of these whether somebody outside has
cancelled it by then.
-/

namespace Cadence

/-- A call of an effect. -/
structure Call (α ε : Type) where
  /-- Its outcome. -/
  outcome : Except ε α
  /-- Whether the session is cancelled before it returns, by the effect or by somebody else
  meanwhile. -/
  cancels : Bool

/-- What a run works on: an effect, and what is done with its outcomes. -/
structure Job (σ α ε τ β : Type) where
  /-- Decides what follows an outcome. -/
  policy : Policy σ α ε
  /-- Says what becomes of the outcomes. -/
  plan : Plan α ε τ β
  /-- The call after a number of calls. -/
  effect : Nat → Call α ε

/-- When somebody outside a run cancels its session: another thread, or another task. -/
structure Outside where
  /-- Whether they have done so by the check that comes after a number of calls. -/
  check : Nat → Bool
  /-- Whether they have done so before the sleep that comes after a number of calls is over. -/
  sleep : Nat → Bool

/-- Nobody outside a run cancels its session. -/
def Outside.nobody : Outside := ⟨fun _ => false, fun _ => false⟩

/-- How a run sleeps, whom it tells of decisions, and who else may cancel its session. -/
structure Runner (α ε : Type) where
  /-- How to sleep. -/
  sleeper : Sleeper
  /-- Whether the observer cancels the session when it is told of a decision, after having been told
  of a number of others. -/
  observer : Nat → Event α ε → Bool
  /-- When somebody outside cancels the session. -/
  outside : Outside

/-- Where a run stands between two turns. -/
structure Cycle {σ α ε τ β : Type} (job : Job σ α ε τ β) where
  /-- The state of the policy until it is complete. -/
  state : Option job.policy.State
  /-- The context of the run. -/
  context : Context
  /-- The number of calls, as far as it is counted. -/
  attempt : Nat
  /-- The number of calls. -/
  calls : Nat
  /-- What the plan keeps. -/
  kept : τ
  /-- The session. -/
  session : Session
  /-- The world in which the policy is stepped. -/
  world : σ

/-- Something that was done in a run: what happened, what came of it, and where the run then stands.
-/
structure Done {σ α ε τ β : Type} (job : Job σ α ε τ β) (ρ : Type) where
  /-- What happened, in order. -/
  trace : List (Happening α ε)
  /-- What came of it. -/
  value : ρ
  /-- Where the run stands. -/
  cycle : Cycle job

variable {σ α ε τ β : Type}

/-- Where a fresh run stands. -/
def Job.begin (job : Job σ α ε τ β) (session : Session) (world : σ) : Cycle job :=
  ⟨some job.policy.start, .initial, 0, 0, job.plan.start, session, world⟩

namespace Cycle

variable {job : Job σ α ε τ β}

/-- Decides what follows an outcome, after one more call. If the plan does not accept the outcome,
the run is complete without the policy. The observer is told of the decisions of the policy, and
they are logged. -/
def decide (runner : Runner α ε) (outcome : Except ε α) (c : Cycle job) : Done job Decision :=
  let attempt := countUp c.attempt
  if job.plan.accepts outcome then
    match c.state with
    | none => ⟨[], .complete, { c with attempt := attempt }⟩
    | some state =>
      let made := job.policy.step state c.context outcome c.world
      let event : Event α ε := ⟨attempt, c.context, outcome, made.decision⟩
      let context := c.context.next made.decision
      let session := c.session.cancelIf (runner.observer c.session.noticed event)
      { trace := [
          .noticed event,
          .logged (.decided attempt context.iteration made.decision context.elapsed)]
        value := made.decision
        cycle := { c with
          state := if made.decision.continues then some made.state else none
          context := context
          attempt := attempt
          session := { session with noticed := session.noticed + 1 }
          world := made.world } }
  else ⟨[.logged (.declined attempt)], .complete, { c with attempt := attempt }⟩

/-- Calls the effect and takes in its outcome. What comes of it is the result of the run, or the
delay before the next call. -/
def call (runner : Runner α ε) (c : Cycle job) :
    Done job (Except (RunError ε) β ⊕ Duration) :=
  let called := job.effect c.calls
  let decided := decide runner called.outcome
    { c with calls := c.calls + 1, session := c.session.cancelIf called.cancels }
  let trace := .called called.outcome :: decided.trace
  match job.plan.absorb c.kept called.outcome decided.value.isComplete with
  | .stops result => ⟨trace, .inl result, decided.cycle⟩
  | .goesOn kept => ⟨trace, .inr decided.value.delay, { decided.cycle with kept := kept }⟩

/-- Sleeps before the next call. The run is cancelled if the sleep is interrupted. -/
def sleep (runner : Runner α ε) (delay : Duration) (c : Cycle job) :
    Done job (Option (Except (RunError ε) β)) :=
  let (completed, session) :=
    runner.sleeper.sleep delay (runner.outside.sleep c.calls) c.session
  let c := { c with session := session }
  if completed then ⟨[.slept delay true], none, c⟩
  else ⟨[.slept delay false, .logged (.interrupted c.attempt)], some (.error .cancelled), c⟩

/-- Where a run stands at the check before a call. Somebody outside may have cancelled the session
since its last sleep was over. -/
def checked (runner : Runner α ε) (c : Cycle job) : Cycle job :=
  { c with session := c.session.cancelIf (runner.outside.check c.calls) }

/-- Stops a run whose session is cancelled. -/
def stop (c : Cycle job) : Done job (Except (RunError ε) β) :=
  ⟨[.logged (.cancelled c.attempt)], .error .cancelled, c⟩

/-- One turn of a run. What comes of it is the result, if the run stops. -/
def turn (runner : Runner α ε) (c : Cycle job) : Done job (Option (Except (RunError ε) β)) :=
  let c := c.checked runner
  if c.session.cancelled then
    let stopped := c.stop
    ⟨stopped.trace, some stopped.value, stopped.cycle⟩
  else
    let called := c.call runner
    match called.value with
    | .inl result => ⟨called.trace, some result, called.cycle⟩
    | .inr delay =>
      let slept := called.cycle.sleep runner delay
      ⟨called.trace ++ slept.trace, slept.value, slept.cycle⟩

end Cycle

end Cadence
