import Cadence.Proofs.Run.LastOutcome

/-!
# Runs that fold

What an operation keeps and returns has no part in what happens: two operations that accept the same
outcomes make the same calls, sleeps, steps of the schedule and events. A run that folds therefore
goes as the run that repeats with the same gate does, and returns all of its successes, folded in
order, where that one returns the last of them.

## Scope

Both runs are compared turn by turn. A task can be seen within a turn as well; what can be seen of
it then is the beginning of what is seen of the other run when that has come far enough.

## Main definitions

* `Run.withOperation` — the same run with another operation
* `Cycle.AtOnePoint` — two runs have come to the same point
* `Run.Folded` — how the results of both runs correspond
* `Run.FoldsAlong` — how a run that folds goes in comparison with one that repeats

## Main results

* `Run.turns_withOperation` — operations with the same rule do the same
* `Run.foldsAlong` — a run that folds goes along with the one that repeats
-/

namespace Cadence

variable {σ α ε τ β τ' β' : Type}

/-- Two runs have come to the same point between two turns: all is the same but for what is kept and
the states of the schedules. -/
structure Cycle.AtOnePoint {job : Job σ α ε τ β} {job' : Job σ α ε τ' β'} (c : Cycle job)
    (c' : Cycle job') : Prop where
  /-- The context is the same. -/
  context : c'.context = c.context
  /-- So is the number of calls that is counted. -/
  attempt : c'.attempt = c.attempt
  /-- So is the number of calls. -/
  calls : c'.calls = c.calls
  /-- So is the session. -/
  session : c'.session = c.session
  /-- So is the world. -/
  world : c'.world = c.world

namespace Run

/-! ### Another operation with the same rule -/

/-- The same run with another operation. -/
def withOperation (r : Run σ α ε τ β) (op : Operation α ε τ' β') : Run σ α ε τ' β' :=
  ⟨op, r.policy, r.effect, r.runner, r.session, r.world⟩

section SameRule

variable {r : Run σ α ε τ β} {op : Operation α ε τ' β'}
  (hrule : ∀ outcome, op.Accepts outcome ↔ r.operation.Accepts outcome)
include hrule

theorem accepts_withOperation (i : Nat) : (r.withOperation op).Accepts i ↔ r.Accepts i :=
  hrule (r.outcome i)

theorem goesOn_withOperation (i : Nat) : (r.withOperation op).GoesOn i ↔ r.GoesOn i :=
  and_congr_left' (accepts_withOperation hrule i)

theorem cancelledIn_withOperation (i : Nat) :
    (r.withOperation op).CancelledIn i ↔ r.CancelledIn i :=
  or_congr_right (or_congr (and_congr_left' (accepts_withOperation hrule i))
    (or_congr (and_congr_left' (goesOn_withOperation hrule i))
      (and_congr_left' (goesOn_withOperation hrule i))))

theorem followed_withOperation (i : Nat) : (r.withOperation op).Followed i ↔ r.Followed i :=
  and_congr_right' (and_congr (goesOn_withOperation hrule i)
    (not_congr (cancelledIn_withOperation hrule i)))

theorem undisturbed_withOperation (n : Nat) :
    (r.withOperation op).Undisturbed n ↔ r.Undisturbed n := by
  simp only [Undisturbed, followed_withOperation hrule]

theorem lastTurn_withOperation (k : Nat) : (r.withOperation op).LastTurn k ↔ r.LastTurn k := by
  simp only [LastTurn, undisturbed_withOperation hrule, followed_withOperation hrule]

theorem callTrace_withOperation : (r.withOperation op).callTrace = r.callTrace := by
  funext i
  simp only [callTrace, accepts_withOperation hrule]
  rfl

theorem history_withOperation (n : Nat) : (r.withOperation op).history n = r.history n := by
  simp only [history, callTrace_withOperation hrule]
  rfl

theorem lastTrace_withOperation (k : Nat) : (r.withOperation op).lastTrace k = r.lastTrace k := by
  simp only [lastTrace, goesOn_withOperation hrule]
  rfl

theorem turnTrace_withOperation (k : Nat) : (r.withOperation op).turnTrace k = r.turnTrace k := by
  simp only [turnTrace, callTrace_withOperation hrule, lastTrace_withOperation hrule]
  rfl

theorem trace_whole_withOperation (k : Nat) :
    ((r.withOperation op).whole k).trace = (r.whole k).trace := by
  rw [trace_whole, trace_whole, history_withOperation hrule, turnTrace_withOperation hrule]

theorem decided_withOperation (k : Nat) : (r.withOperation op).decided k = r.decided k := by
  simp only [decided, accepts_withOperation hrule]

theorem cancelledByCall_withOperation (k : Nat) :
    (r.withOperation op).cancelledByCall k = r.cancelledByCall k :=
  decide_eq_decide.mpr (or_congr_right (and_congr_left' (accepts_withOperation hrule k)))

theorem atOnePoint_cycleAfter (k : Nat) (cancelled : Bool) :
    (r.cycleAfter k cancelled).AtOnePoint ((r.withOperation op).cycleAfter k cancelled) where
  context := by
    simp only [cycleAfter, decided_withOperation hrule]
    rfl
  attempt := rfl
  calls := rfl
  session := by
    simp only [cycleAfter, decided_withOperation hrule]
    rfl
  world := by
    simp only [cycleAfter, decided_withOperation hrule]
    rfl

/-- Runs that end with the same call come to the same point. -/
theorem atOnePoint_finish (k : Nat) :
    (r.finish k).cycle.AtOnePoint ((r.withOperation op).finish k).cycle := by
  by_cases hgoes : r.GoesOn k
  · simp only [finish, if_pos hgoes, if_pos ((goesOn_withOperation hrule k).mpr hgoes)]
    exact atOnePoint_cycleAfter hrule k true
  · simp only [finish, if_neg hgoes, if_neg (hgoes ∘ (goesOn_withOperation hrule k).mp),
      cancelledByCall_withOperation hrule]
    exact atOnePoint_cycleAfter hrule k (r.cancelledByCall k)

/-- Runs with the same last turn come to the same point. -/
theorem atOnePoint_whole (k : Nat) :
    (r.whole k).cycle.AtOnePoint ((r.withOperation op).whole k).cycle := by
  by_cases hb : r.CancelledBefore k
  · have hb' : (r.withOperation op).CancelledBefore k := hb
    rw [whole, whole, if_pos hb, if_pos hb']
    exact ⟨rfl, rfl, rfl, rfl, rfl⟩
  · have hb' : ¬ (r.withOperation op).CancelledBefore k := hb
    rw [whole, whole, if_neg hb, if_neg hb']
    exact atOnePoint_finish hrule k

/-- **Operations with the same rule do the same**: turn by turn the same happens, and the runs come
to the same point. -/
theorem turns_withOperation (n : Nat) :
    ((r.withOperation op).turns n).trace = (r.turns n).trace ∧
      (r.turns n).cycle.AtOnePoint ((r.withOperation op).turns n).cycle := by
  rcases undisturbed_or_lastTurn r n with hn | ⟨k, hk, hlast⟩
  · rw [turns_of_undisturbed hn,
      turns_of_undisturbed ((undisturbed_withOperation hrule n).mpr hn)]
    exact ⟨history_withOperation hrule n, rfl, rfl, rfl, rfl, rfl⟩
  · rw [turns_of_lastTurn hlast hk,
      turns_of_lastTurn ((lastTurn_withOperation hrule k).mpr hlast) hk]
    exact ⟨trace_whole_withOperation hrule k, atOnePoint_whole hrule k⟩

/-- Either of them ends if the other does, whichever way they are driven. -/
theorem ends_withOperation_iff (driver driver' : Driver) :
    (∃ d, (r.withOperation op).Ends driver d) ↔ ∃ d, r.Ends driver' d := by
  simp only [ends_iff_lastTurn]
  constructor
  · rintro ⟨_, k, hk, -⟩
    exact ⟨_, k, (lastTurn_withOperation hrule k).mp hk, rfl⟩
  · rintro ⟨_, k, hk, -⟩
    exact ⟨_, k, (lastTurn_withOperation hrule k).mpr hk, rfl⟩

/-- What is seen of one of them while it is under way is the beginning of what is seen of the other
when that has come far enough. -/
theorem exists_prefix_withOperation (driver driver' : Driver) (n : Nat) :
    ∃ m, ((r.withOperation op).upTo driver n).trace <+: (r.upTo driver' m).trace := by
  obtain ⟨m, -, hm⟩ := exists_upTo_eq_turns r driver' n
  refine ⟨m, ?_⟩
  rw [hm, ← (turns_withOperation hrule n).1]
  exact isPrefix_trace_upTo (r.withOperation op) driver n

end SameRule

/-! ### Folding and repeating -/

theorem accepts_fold_iff (init : β) (f : β → α → β) (gate : Gate α) (outcome : Except ε α) :
    (Operation.fold init f gate).Accepts outcome ↔
      (Operation.last (.repeating gate)).Accepts outcome := by
  cases outcome <;> exact Iff.rfl

theorem exists_ok_of_accepts {gate : Gate α} {outcome : Except ε α}
    (h : (Operation.last (.repeating gate)).Accepts outcome) : ∃ value, outcome = .ok value := by
  cases outcome with
  | ok value => exact ⟨value, rfl⟩
  | error error => exact h.elim

/-- Outcomes that are all successes. -/
theorem map_ok_successes {outcomes : Nat → Except ε α} {n : Nat}
    (h : ∀ i < n, ∃ value, outcomes i = .ok value) :
    (List.range n).map outcomes = (successes outcomes n).map .ok := by
  induction n with
  | zero => rfl
  | succ n ih =>
    obtain ⟨value, hvalue⟩ := h n (Nat.lt_succ_self n)
    rw [List.range_succ, List.map_append, ih fun i hi => h i (Nat.lt_succ_of_lt hi),
      successes_succ, List.map_append, List.map_singleton, hvalue]
    rfl

/-- How the result of a run that repeats, by the outcomes of its calls, and the result of one that
folds correspond. -/
inductive Folded (init : β) (f : β → α → β) (outcomes : List (Except ε α)) :
    Except (RunError ε) α → Except (RunError ε) β → Prop where
  /-- All calls have succeeded: their values, each of them once, are folded in order, the last of
  them included. -/
  | ok (values : List α) (last : α) (h : outcomes = (values ++ [last]).map .ok) :
    Folded init f outcomes (.ok last) (.ok ((values ++ [last]).foldl f init))
  /-- The last call has failed. -/
  | failed (values : List α) (error : ε) (h : outcomes = values.map .ok ++ [.error error]) :
    Folded init f outcomes (.error (.failed error)) (.error (.failed error))
  /-- The run was cancelled. -/
  | cancelled : Folded init f outcomes (.error .cancelled) (.error .cancelled)

/-- The results of two operations that stop after the same call, all calls before it having
succeeded. -/
theorem folded_result (init : β) (f : β → α → β) (gate : Gate α) {outcomes : Nat → Except ε α}
    {k : Nat} (h : ∀ i < k, ∃ value, outcomes i = .ok value) :
    Folded init f ((List.range (k + 1)).map outcomes)
      ((Operation.last (.repeating gate)).result outcomes k)
      ((Operation.fold init f gate).result outcomes k) := by
  rw [List.range_succ, List.map_append, List.map_singleton, map_ok_successes h]
  cases hlast : outcomes k with
  | ok value =>
    have hall : successes outcomes (k + 1) = successes outcomes k ++ [value] := by
      rw [successes_succ, hlast]
      rfl
    simp only [Operation.result, hlast, hall]
    exact .ok (successes outcomes k) value (by rw [List.map_append, List.map_singleton])
  | error error =>
    simp only [Operation.result, hlast]
    exact .failed (successes outcomes k) error rfl

section

variable (r : Run σ α ε τ τ') (init : β) (f : β → α → β) (gate : Gate α)

/-- The same run, which repeats with a gate. -/
def repeating : Run σ α ε Unit α := r.withOperation (.last (.repeating gate))

/-- The same run, which folds with a gate. -/
def folding : Run σ α ε β β := (r.repeating gate).withOperation (.fold init f gate)

theorem rule_folding (outcome : Except ε α) : (Operation.fold init f gate).Accepts outcome ↔
    (r.repeating gate).operation.Accepts outcome :=
  accepts_fold_iff init f gate outcome

/-- The results of both runs, if they have the same last turn. -/
theorem folded_whole {k : Nat} (h : (r.repeating gate).Undisturbed k) :
    Folded init f (Happening.outcomes ((r.repeating gate).whole k).trace)
      ((r.repeating gate).whole k).value ((r.folding init f gate).whole k).value := by
  have hgoes_iff : (r.folding init f gate).GoesOn k ↔ (r.repeating gate).GoesOn k :=
    goesOn_withOperation (r.rule_folding init f gate) k
  by_cases hb : (r.repeating gate).CancelledBefore k
  · have hb' : (r.folding init f gate).CancelledBefore k := hb
    rw [whole, whole, if_pos hb, if_pos hb']
    exact .cancelled
  · have hb' : ¬ (r.folding init f gate).CancelledBefore k := hb
    rw [whole, whole, if_neg hb, if_neg hb', value_finish, value_finish, outcomes_finish]
    by_cases hgoes : (r.repeating gate).GoesOn k
    · rw [if_pos hgoes, if_pos (hgoes_iff.mpr hgoes)]
      exact .cancelled
    · rw [if_neg hgoes, if_neg (hgoes ∘ hgoes_iff.mp)]
      exact folded_result init f gate fun i hi => exists_ok_of_accepts (h.accepts i hi)

/-- As long as a run that folds is under way, it has kept what its successes fold to. -/
theorem kept_folding {n : Nat} (h : ((r.folding init f gate).turns n).value = none) :
    ((r.folding init f gate).turns n).cycle.kept =
      ((Happening.outcomes ((r.folding init f gate).turns n).trace).filterMap
        Except.toOption).foldl f init := by
  rcases undisturbed_or_lastTurn (r.folding init f gate) n with hn | ⟨k, hk, hlast⟩
  · rw [turns_of_undisturbed hn, outcomes_history, List.filterMap_map]
    rfl
  · rw [turns_of_lastTurn hlast hk] at h
    exact nomatch h

end

/-- How a run `r'` that folds goes in comparison with a run `r` that repeats. -/
structure FoldsAlong (init : β) (f : β → α → β) (r : Run σ α ε Unit α) (r' : Run σ α ε β β) :
    Prop where
  /-- Turn by turn the same happens: the same calls, sleeps and events. -/
  trace : ∀ n, (r'.turns n).trace = (r.turns n).trace
  /-- After any number of turns both have come to the same point. -/
  atOnePoint : ∀ n, (r.turns n).cycle.AtOnePoint (r'.turns n).cycle
  /-- Until then their schedules were stepped on the same outcomes, in the same order. -/
  stepped : ∀ n, (r'.recorded.turns n).cycle.world = (r.recorded.turns n).cycle.world
  /-- As long as it is under way, the run that folds has kept what its successes fold to. -/
  kept : ∀ n, (r'.turns n).value = none → (r'.turns n).cycle.kept =
    ((Happening.outcomes (r'.turns n).trace).filterMap Except.toOption).foldl f init
  /-- What is seen of either at any time is the beginning of what is seen of the other, when that
  has come far enough. -/
  underWay : ∀ driver driver' n,
    (∃ m, (r'.upTo driver n).trace <+: (r.upTo driver' m).trace) ∧
      ∃ m, (r.upTo driver n).trace <+: (r'.upTo driver' m).trace
  /-- Either ends if the other does. -/
  ends : ∀ driver driver', (∃ d, r'.Ends driver d) ↔ ∃ d, r.Ends driver' d
  /-- When they have ended, the same has happened, and their results correspond. -/
  ended : ∀ driver driver' d d', r.Ends driver d → r'.Ends driver' d' →
    d'.trace = d.trace ∧ d.cycle.AtOnePoint d'.cycle ∧
      Folded init f (Happening.outcomes d.trace) d.value d'.value

/-- **A run that folds goes along with the one that repeats** with the same gate, whatever the
schedule and the outcomes are, and whichever way both are driven. The session may be cancelled by
the effect, by the observer, by the sleeper or by somebody outside. -/
theorem foldsAlong (r : Run σ α ε τ τ') (init : β) (f : β → α → β) (gate : Gate α) :
    FoldsAlong init f (r.repeating gate) (r.folding init f gate) := by
  have hrule := r.rule_folding init f gate
  have hrule' := fun outcome => (hrule outcome).symm
  refine ⟨fun n => (turns_withOperation hrule n).1, fun n => (turns_withOperation hrule n).2, ?_,
    fun n => r.kept_folding init f gate, ?_, ends_withOperation_iff hrule, ?_⟩
  · -- with a record of its steps, either run is one of the same kind
    exact fun n => (turns_withOperation (r := (r.repeating gate).recorded) hrule n).2.world
  · exact fun driver driver' n => ⟨exists_prefix_withOperation hrule driver driver' n,
      exists_prefix_withOperation (r := r.folding init f gate) hrule' driver driver' n⟩
  · intro driver driver' d d' hd hd'
    obtain ⟨k, hk, rfl⟩ := ends_iff_lastTurn.mp hd
    obtain rfl := ((lastTurn_withOperation hrule k).mpr hk).ends_iff.mp hd'
    exact ⟨trace_whole_withOperation hrule k, atOnePoint_whole hrule k,
      r.folded_whole init f gate hk.1⟩

end Run

end Cadence
