import Cadence.Duration.Text

/-!
# Decisions

A schedule answers every run with a decision: the work is complete, or it runs again, at once or
after a delay. Two decisions are merged in two ways. In both, `complete` wins and `runAgain`, which
asks for no delay of its own, leaves the other decision as it is; the merges differ in which of two
delays they take.

## Main definitions

* `Decision` — the three answers
* `Decision.union` — the shorter of two delays
* `Decision.intersect` — the longer of two delays
* `Decision.mapDelay` — a change of the delay
-/

namespace Cadence

/-- What happens after a run. -/
inductive Decision where
  /-- There are no further runs. -/
  | complete
  /-- The next run follows at once. -/
  | runAgain
  /-- The next run follows after a delay. -/
  | runAfter (delay : Duration)
deriving DecidableEq

namespace Decision

/-! ### Reading a decision -/

/-- Whether there are no further runs. -/
def isComplete : Decision → Bool
  | complete => true
  | _ => false

/-- Whether there is a next run. -/
def continues (d : Decision) : Bool := !d.isComplete

/-- The delay before the next run, if there is one. -/
def delay? : Decision → Option Duration
  | complete => none
  | runAgain => some 0
  | runAfter delay => some delay

/-- The delay a decision adds to a run, which is none at all when there is no next run. -/
def delay (d : Decision) : Duration := d.delay?.getD 0

/-- The decision as a phrase. -/
def text : Decision → String
  | complete => "complete"
  | runAgain => "run again"
  | runAfter delay => "run again after " ++ delay.text

/-! ### Changing and merging decisions -/

/-- The decision with its delay changed by `f`. A next run that followed at once is given the delay
`f 0`. -/
def mapDelay (f : Duration → Duration) (d : Decision) : Decision :=
  match d.delay? with
  | none => complete
  | some delay => runAfter (f delay)

/-- Merges two decisions, taking `pick` of two delays. -/
def merge (pick : Duration → Duration → Duration) : Decision → Decision → Decision
  | complete, _ => complete
  | _, complete => complete
  | runAgain, other => other
  | other, runAgain => other
  | runAfter a, runAfter b => runAfter (pick a b)

/-- Both decisions at once, with the shorter of two delays. -/
def union : Decision → Decision → Decision := merge min

/-- Both decisions at once, with the longer of two delays. -/
def intersect : Decision → Decision → Decision := merge max

/-- The decision with its delay, if it has one of its own, cut down to `limit`. -/
def cap (limit : Duration) : Decision → Decision
  | runAfter delay => runAfter (min delay limit)
  | other => other

end Decision

end Cadence
