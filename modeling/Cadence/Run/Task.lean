import Cadence.Run.Cycle

/-!
# Suspended runs

A run as a task that is polled: calls of the effect and sleeps take time, and while they are pending
the task is suspended. A pending call has done nothing yet; what it does happens when it returns. A
sleep is pending until its time is over or somebody outside has cancelled the session. In a session
that was cancelled before, it is not pending at all.

## Main definitions

* `Pace` — for how many polls calls and sleeps are pending
* `Task` — a run between two polls
* `Task.poll` — one poll
* `Task.run` — polls up to a result

## Implementation notes

A sleeper that records takes no time, so its sleeps are never pending. When a sleep is interrupted
the next poll finds it so. As it may be pending for any number of polls, that can be any of them.
-/

namespace Cadence

/-- How slow calls and sleeps are. -/
structure Pace where
  /-- For how many polls the call after a number of calls is pending. -/
  call : Nat → Nat
  /-- For how many polls the sleep after a number of calls is pending, until its time is over or it
  is interrupted. -/
  sleep : Nat → Nat

/-- What a task is about to do. It works on a run with results in `β` and errors in `ε`. -/
inductive Phase (ε β : Type) where
  /-- Begin a turn. -/
  | turning
  /-- Wait for a call that is pending for a number of polls. -/
  | calling (pending : Nat)
  /-- Wait for a sleep that is pending for a number of polls. -/
  | sleeping (delay : Duration) (pending : Nat)
  /-- Nothing, as there is a result. -/
  | finished (result : Except (RunError ε) β)

/-- The result of a task, if it has one. -/
def Phase.result? {ε β : Type} : Phase ε β → Option (Except (RunError ε) β)
  | finished result => some result
  | _ => none

variable {σ α ε τ β : Type}

/-- A run between two polls. -/
structure Task (job : Job σ α ε τ β) where
  /-- What is to be done next. -/
  phase : Phase ε β
  /-- Where the run stands. -/
  cycle : Cycle job

/-- The task of a fresh run. -/
def Job.task (job : Job σ α ε τ β) (session : Session) (world : σ) : Task job :=
  ⟨.turning, job.begin session world⟩

/-- Whether sleeps take time. -/
def Sleeper.takesTime : Sleeper → Bool
  | recording _ => false
  | waiting => true

namespace Task

variable {job : Job σ α ε τ β}

/-- One step of a task and what happens in it. -/
def poll (runner : Runner α ε) (pace : Pace) (t : Task job) : List (Happening α ε) × Task job :=
  let c := t.cycle
  match t.phase with
  | .finished _ => ([], t)
  | .turning =>
    let c := c.checked runner
    if c.session.cancelled then
      let stopped := c.stop
      (stopped.trace, ⟨.finished stopped.value, stopped.cycle⟩)
    else ([], ⟨.calling (pace.call c.calls), c⟩)
  | .calling (pending + 1) => ([], ⟨.calling pending, c⟩)
  | .calling 0 =>
    let called := c.call runner
    match called.value with
    | .inl result => (called.trace, ⟨.finished result, called.cycle⟩)
    | .inr delay =>
      (called.trace, ⟨.sleeping delay (pace.sleep called.cycle.calls), called.cycle⟩)
  | .sleeping delay pending =>
    if runner.sleeper.takesTime && !c.session.cancelled && pending != 0 then
      ([], ⟨.sleeping delay (pending - 1), c⟩)
    else
      let slept := c.sleep runner delay
      match slept.value with
      | some result => (slept.trace, ⟨.finished result, slept.cycle⟩)
      | none => (slept.trace, ⟨.turning, slept.cycle⟩)

/-- At most `n` polls. What comes of them is the result, if there is one by then. -/
def run (runner : Runner α ε) (pace : Pace) :
    Nat → Task job → Done job (Option (Except (RunError ε) β))
  | 0, t => ⟨[], t.phase.result?, t.cycle⟩
  | n + 1, t =>
    match t.phase.result? with
    | some result => ⟨[], some result, t.cycle⟩
    | none =>
      let polled := t.poll runner pace
      let rest := run runner pace n polled.2
      ⟨polled.1 ++ rest.trace, rest.value, rest.cycle⟩

end Task

end Cadence
