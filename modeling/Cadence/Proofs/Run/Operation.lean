import Cadence.Run.Plan

/-!
# The nine operations

What a caller can ask for, told without plans: which outcomes an operation accepts, and what a run
of it returns when it stops after a number of calls. There are nine operations, in two groups.
Repeating and retrying return the last outcome; folding returns a value that is put together from
all successes. Each goes on after every outcome of the right kind, or only as long as a test of it
has a given value.

## Main definitions

* `Gate` — no test, or one of the two ways to use a test
* `LastOperation` — the six operations that return the last outcome
* `Operation` — all nine operations
* `Operation.Accepts` — the rule of an operation
* `Operation.result` — what it returns when it stops after a call

## Main results

* `Operation.accepts_plan` — its plan accepts what the rule says
* `Operation.absorb_true`, `Operation.absorb_false` — its plan returns and keeps what it should
-/

namespace Cadence

variable {α ε τ β : Type}

/-- Which values an operation goes on after. -/
inductive Gate (α : Type) where
  /-- After every value. -/
  | all
  /-- After the values for which a test holds. -/
  | holding (test : α → Bool)
  /-- After the values for which a test does not hold. -/
  | failing (test : α → Bool)

/-- Whether a gate lets a value pass. -/
def Gate.Passes : Gate α → α → Prop
  | all, _ => True
  | holding test, value => test value = true
  | failing test, value => test value = false

/-- The operations that return the last outcome. -/
inductive LastOperation (α ε : Type) where
  /-- Goes on after successes that pass the gate. -/
  | repeating (gate : Gate α)
  /-- Goes on after failures with errors that pass the gate. -/
  | retrying (gate : Gate ε)

namespace LastOperation

/-- The rule of an operation: whether the schedule is asked after an outcome. -/
def Accepts : LastOperation α ε → Except ε α → Prop
  | repeating gate, .ok value => gate.Passes value
  | repeating _, .error _ => False
  | retrying _, .ok _ => False
  | retrying gate, .error error => gate.Passes error

/-- The plan of an operation. -/
def plan : LastOperation α ε → Plan α ε Unit α
  | repeating .all => .repeating
  | repeating (.holding test) => .repeatingWhile test
  | repeating (.failing test) => .repeatingUntil test
  | retrying .all => .retrying
  | retrying (.holding test) => .retryingWhile test
  | retrying (.failing test) => .retryingUntil test

theorem accepts_plan (op : LastOperation α ε) (outcome : Except ε α) :
    op.plan.accepts outcome = true ↔ op.Accepts outcome := by
  cases op with
  | repeating gate =>
    cases gate <;> cases outcome <;>
      simp [plan, Accepts, Gate.Passes, Plan.repeating, Plan.repeatingWhile, Plan.repeatingUntil,
        Plan.last]
  | retrying gate =>
    cases gate <;> cases outcome <;>
      simp [plan, Accepts, Gate.Passes, Plan.retrying, Plan.retryingWhile, Plan.retryingUntil,
        Plan.last]

/-- Each of the six takes outcomes in as every plan does that returns the last one. -/
theorem plan_absorb (op : LastOperation α ε) :
    op.plan.absorb = fun _ outcome done => if done then .stops (Plan.result outcome)
      else .goesOn () := by
  cases op with
  | repeating gate => cases gate <;> rfl
  | retrying gate => cases gate <;> rfl

end LastOperation

/-- The operations, by what they keep between two calls and what they return. -/
inductive Operation (α ε : Type) : Type → Type → Type 1 where
  /-- Returns the last outcome and keeps nothing. -/
  | last (op : LastOperation α ε) : Operation α ε Unit α
  /-- Folds all successes, goes on after those that pass the gate, and stops at a failure. -/
  | fold {β : Type} (init : β) (f : β → α → β) (gate : Gate α) : Operation α ε β β

/-- The successes among the first `n` outcomes of a stream, in order. -/
def successes (outcomes : Nat → Except ε α) (n : Nat) : List α :=
  (List.range n).filterMap fun i => (outcomes i).toOption

theorem successes_succ (outcomes : Nat → Except ε α) (n : Nat) :
    successes outcomes (n + 1) = successes outcomes n ++ (outcomes n).toOption.toList := by
  rw [successes, List.range_succ, List.filterMap_append, ← successes]
  cases h : outcomes n <;> simp [h, Except.toOption]

namespace Operation

/-- The rule of an operation: whether the schedule is asked after an outcome. -/
def Accepts : Operation α ε τ β → Except ε α → Prop
  | last op, outcome => op.Accepts outcome
  | fold _ _ gate, .ok value => gate.Passes value
  | fold _ _ _, .error _ => False

/-- What an operation has kept after `n` calls. -/
def kept : Operation α ε τ β → (Nat → Except ε α) → Nat → τ
  | last _, _, _ => ()
  | fold init f _, outcomes, n => (successes outcomes n).foldl f init

/-- What an operation returns when it stops after call `n`, the first being call zero. -/
def result : Operation α ε τ β → (Nat → Except ε α) → Nat → Except (RunError ε) β
  | last _, outcomes, n =>
    match outcomes n with
    | .ok value => .ok value
    | .error error => .error (.failed error)
  | fold init f _, outcomes, n =>
    match outcomes n with
    | .ok _ => .ok ((successes outcomes (n + 1)).foldl f init)
    | .error error => .error (.failed error)

/-- The plan of an operation. -/
def plan : Operation α ε τ β → Plan α ε τ β
  | last op => op.plan
  | fold init f .all => .folding init f
  | fold init f (.holding test) => .foldingWhile init f test
  | fold init f (.failing test) => .foldingUntil init f test

theorem accepts_plan (op : Operation α ε τ β) (outcome : Except ε α) :
    op.plan.accepts outcome = true ↔ op.Accepts outcome := by
  cases op with
  | last op => exact op.accepts_plan outcome
  | fold init f gate =>
    cases gate <;> cases outcome <;>
      simp [plan, Accepts, Gate.Passes, Plan.folding, Plan.foldingWhile, Plan.foldingUntil,
        Plan.fold]

instance (op : Operation α ε τ β) (outcome : Except ε α) : Decidable (op.Accepts outcome) :=
  decidable_of_iff _ (op.accepts_plan outcome)

/-- Each of the three takes outcomes in as every plan does that folds. -/
theorem plan_fold_absorb (init : β) (f : β → α → β) (gate : Gate α) (test : α → Bool) :
    (fold (ε := ε) init f gate).plan.absorb = (Plan.fold init f test).absorb := by
  cases gate <;> rfl

theorem plan_start (op : Operation α ε τ β) (outcomes : Nat → Except ε α) :
    op.plan.start = op.kept outcomes 0 := by
  cases op with
  | last op => rfl
  | fold init f gate => cases gate <;> rfl

/-- An operation that stops after a call returns its result. -/
theorem absorb_true (op : Operation α ε τ β) (outcomes : Nat → Except ε α) (n : Nat) :
    op.plan.absorb (op.kept outcomes n) (outcomes n) true = .stops (op.result outcomes n) := by
  cases op with
  | last op =>
    rw [plan, op.plan_absorb]
    cases h : outcomes n <;> simp [result, Plan.result, h]
  | fold init f gate =>
    rw [plan_fold_absorb init f gate fun _ => true]
    cases h : outcomes n <;>
      simp [Plan.fold, result, kept, successes_succ, h, Except.toOption]

/-- An operation stops when it is told to, whatever it has kept. -/
theorem exists_absorb_true (op : Operation α ε τ β) (kept : τ) (outcome : Except ε α) :
    ∃ result, op.plan.absorb kept outcome true = .stops result := by
  cases op with
  | last op =>
    rw [plan, op.plan_absorb]
    exact ⟨_, rfl⟩
  | fold init f gate =>
    rw [plan_fold_absorb init f gate fun _ => true]
    cases outcome <;> exact ⟨_, rfl⟩

/-- An operation that goes on after a call has accepted the outcome and taken it in. -/
theorem absorb_false (op : Operation α ε τ β) (outcomes : Nat → Except ε α) {n : Nat}
    (h : op.Accepts (outcomes n)) :
    op.plan.absorb (op.kept outcomes n) (outcomes n) false =
      .goesOn (op.kept outcomes (n + 1)) := by
  cases op with
  | last op => rw [plan, op.plan_absorb]; rfl
  | fold init f gate =>
    rw [plan_fold_absorb init f gate fun _ => true]
    cases ho : outcomes n with
    | ok value => simp [Plan.fold, kept, successes_succ, ho, Except.toOption]
    | error error => simp [Accepts, ho] at h

/-- No operation returns as if it had been cancelled. -/
theorem result_ne_cancelled (op : Operation α ε τ β) (outcomes : Nat → Except ε α) (n : Nat) :
    op.result outcomes n ≠ .error .cancelled := by
  cases op with
  | last op => cases h : outcomes n <;> simp [result, h]
  | fold init f gate => cases h : outcomes n <;> simp [result, h]

end Operation

end Cadence
