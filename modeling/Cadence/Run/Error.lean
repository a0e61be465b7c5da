/-!
# How a run fails

A run that does not end in success either failed, with the error of the last call of its effect, or
was cancelled. The two are never mixed up: the error of an effect is passed on unchanged.

## Main definitions

* `RunError` — the two ways
* `RunError.failure?`, `RunError.map` — the error of the effect
-/

namespace Cadence

/-- Why a run did not end in success. -/
inductive RunError (ε : Type) where
  /-- The last call of the effect failed. -/
  | failed (error : ε)
  /-- The run was cancelled. -/
  | cancelled
deriving DecidableEq

namespace RunError

variable {ε : Type}

/-- Whether the run was cancelled. -/
def isCancelled : RunError ε → Bool
  | failed _ => false
  | cancelled => true

/-- Whether the effect failed. -/
def isFailed : RunError ε → Bool
  | failed _ => true
  | cancelled => false

/-- The error of the effect, if the run failed. -/
def failure? : RunError ε → Option ε
  | failed error => some error
  | cancelled => none

/-- The same with the error of the effect changed by `f`. -/
def map {δ : Type} (f : ε → δ) : RunError ε → RunError δ
  | failed error => failed (f error)
  | cancelled => cancelled

/-- What the error says, where `text` is what the error of the effect says. -/
def message (text : ε → String) : RunError ε → String
  | failed error => text error
  | cancelled => "run cancelled"

end RunError

end Cadence
