import Cadence.Run.Error

/-!
# What is done with outcomes

A run calls an effect again and again. A plan says after which outcomes the schedule is asked
whether to go on, and what becomes of the outcomes: a run returns the last one, or folds all
successes into one value.

| plan | the schedule is asked after | the run returns |
|---|---|---|
| `repeating` | a success | the last success or the first failure |
| `retrying` | a failure | the first success or the last failure |
| `folding` | a success | the folded value or the first failure |

With `While` or `Until` a plan has a test as well, of the success or of the error; the schedule is
asked only as long as the test holds, or as it does not hold.

## Main definitions

* `Plan` — what is done with outcomes
* `Plan.last`, `Plan.fold` — the two ways to a result
* `Plan.repeating`, `Plan.retrying`, `Plan.folding` and their variants
-/

namespace Cadence

/-- What becomes of a run when an outcome was taken in. It keeps values in `τ` and returns values in
`β`, or fails with errors in `ε`. -/
inductive Absorbed (ε τ β : Type) where
  /-- The run stops with a result. -/
  | stops (result : Except (RunError ε) β)
  /-- The run goes on and keeps a value. -/
  | goesOn (kept : τ)

/-- What is done with outcomes: successes in `α` and errors in `ε`. -/
structure Plan (α ε τ β : Type) where
  /-- What a fresh run keeps. -/
  start : τ
  /-- Whether the schedule is asked after an outcome. -/
  accepts : Except ε α → Bool
  /-- Takes in an outcome, after which the run is done or not. -/
  absorb : τ → Except ε α → Bool → Absorbed ε τ β

namespace Plan

variable {α ε β : Type}

/-- An outcome as the result of a run. -/
def result : Except ε α → Except (RunError ε) α
  | .ok value => .ok value
  | .error error => .error (.failed error)

/-- Returns the last outcome. -/
def last (accepts : Except ε α → Bool) : Plan α ε Unit α where
  start := ()
  accepts := accepts
  absorb _ outcome done := if done then .stops (result outcome) else .goesOn ()

/-- Folds every success, also the one after which the run stops, and stops at a failure. The
schedule is asked after a success for which `test` holds. -/
def fold (init : β) (f : β → α → β) (test : α → Bool) : Plan α ε β β where
  start := init
  accepts
    | .ok value => test value
    | .error _ => false
  absorb
    | kept, .ok value, done => if done then .stops (.ok (f kept value)) else .goesOn (f kept value)
    | _, .error error, _ => .stops (.error (.failed error))

/-! ### Repeating -/

/-- Runs again after a success for which `test` holds. -/
def repeatingWhile (test : α → Bool) : Plan α ε Unit α :=
  last fun
    | .ok value => test value
    | .error _ => false

/-- Runs again after a success. -/
def repeating : Plan α ε Unit α :=
  last fun
    | .ok _ => true
    | .error _ => false

/-- Runs again after a success for which `test` does not hold. -/
def repeatingUntil (test : α → Bool) : Plan α ε Unit α := repeatingWhile fun value => !test value

/-! ### Retrying -/

/-- Runs again after a failure with an error for which `test` holds. -/
def retryingWhile (test : ε → Bool) : Plan α ε Unit α :=
  last fun
    | .ok _ => false
    | .error error => test error

/-- Runs again after a failure. -/
def retrying : Plan α ε Unit α :=
  last fun
    | .ok _ => false
    | .error _ => true

/-- Runs again after a failure with an error for which `test` does not hold. -/
def retryingUntil (test : ε → Bool) : Plan α ε Unit α := retryingWhile fun error => !test error

/-! ### Folding -/

/-- Folds successes and runs again after one for which `test` holds. -/
def foldingWhile (init : β) (f : β → α → β) (test : α → Bool) : Plan α ε β β := fold init f test

/-- Folds successes and runs again after each. -/
def folding (init : β) (f : β → α → β) : Plan α ε β β := foldingWhile init f fun _ => true

/-- Folds successes and runs again after one for which `test` does not hold. -/
def foldingUntil (init : β) (f : β → α → β) (test : α → Bool) : Plan α ε β β :=
  foldingWhile init f fun value => !test value

end Plan

end Cadence
