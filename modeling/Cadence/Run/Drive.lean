import Cadence.Run.Cycle

/-!
# Runs

A run takes one turn after the other until there is a result.

## Main definitions

* `Cycle.drive` — at most a number of turns
* `Runner.run` — a fresh run of at most a number of turns

## Implementation notes

A run need not come to an end: an effect may succeed for ever under a schedule that is never
complete. The number of turns is therefore given. A run that had not enough of them has no result,
and with more turns it would go on from where it stands.
-/

namespace Cadence

variable {σ α ε τ β : Type}

/-- At most `n` turns of a run. What comes of them is the result, if there is one by then. -/
def Cycle.drive {job : Job σ α ε τ β} (runner : Runner α ε) :
    Nat → Cycle job → Done job (Option (Except (RunError ε) β))
  | 0, c => ⟨[], none, c⟩
  | n + 1, c =>
    let turned := c.turn runner
    match turned.value with
    | some result => ⟨turned.trace, some result, turned.cycle⟩
    | none =>
      let rest := drive runner n turned.cycle
      ⟨turned.trace ++ rest.trace, rest.value, rest.cycle⟩

/-- A fresh run of at most `n` turns. -/
def Runner.run (runner : Runner α ε) (job : Job σ α ε τ β) (n : Nat) (session : Session)
    (world : σ) : Done job (Option (Except (RunError ε) β)) :=
  (job.begin session world).drive runner n

end Cadence
