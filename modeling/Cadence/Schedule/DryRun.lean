import Cadence.Schedule.Basic

/-!
# Dry runs

A dry run asks a schedule for its decisions without running anything. It yields them one by one, up
to and including the first that is complete.

## Main definitions

* `DryRun` — a dry run under way
* `DryRun.next` — the next decision, if there is one
* `DryRun.collect` — what is seen in the next decisions
* `DryRun.decisions`, `DryRun.delays` — the next decisions, and the next delays
-/

namespace Cadence

variable {σ : Type}

/-- A dry run of a schedule: its state until it is complete, the context, and the world. -/
structure DryRun (s : Schedule σ) where
  /-- The state of the schedule, which is dropped when it is complete. -/
  state : Option s.State
  /-- The context after the last decision. -/
  context : Context
  /-- The world after the last decision. -/
  world : σ

/-- The dry run of a schedule before its first decision. -/
def Schedule.dryRun (s : Schedule σ) (world : σ) : DryRun s := ⟨some s.start, .initial, world⟩

namespace DryRun

variable {s : Schedule σ}

/-- Whether the schedule was complete. -/
def finished (r : DryRun s) : Bool := r.state.isNone

/-- The next decision, if the schedule was not complete before. -/
def next (r : DryRun s) : Option Decision × DryRun s :=
  match r.state with
  | none => (none, r)
  | some state =>
    let made := s.step state r.context r.world
    (some made.decision,
      ⟨if made.decision.continues then some made.state else none, r.context.next made.decision,
        made.world⟩)

/-- What `view` shows of the next decisions: at most `n` of them, and none from the first of which
it shows nothing. -/
def collect {β : Type} (view : Decision → Option β) : Nat → DryRun s → List β × DryRun s
  | 0, r => ([], r)
  | n + 1, r =>
    match r.next with
    | (none, r) => ([], r)
    | (some decision, r) =>
      match view decision with
      | none => ([], r)
      | some b =>
        let rest := collect view n r
        (b :: rest.1, rest.2)

/-- The next decisions, at most `n` of them. -/
def decisions (n : Nat) (r : DryRun s) : List Decision × DryRun s := r.collect some n

/-- The delays of the next decisions that continue, at most `n` of them. -/
def delays (n : Nat) (r : DryRun s) : List Duration × DryRun s := r.collect Decision.delay? n

end DryRun

end Cadence
