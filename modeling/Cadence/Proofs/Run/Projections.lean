import Cadence.Proofs.Run.Progress

/-!
# What is seen of a run

The trace of a run holds everything that happens in it. Here are the parts of it that concern one
party alone: the outcomes the effect has had, the delays the sleeper was asked for and those it has
taken, and the events the observer was told of.

## Main definitions

* `Happening.asked` — the delays of all sleeps, completed or not
* `Run.lastTrace` — what happens after the last decision of a run
* `Run.turnTrace` — what happens in its last turn

## Main results

* `Run.outcomes_history`, `Run.events_history`, `Run.asked_history`, `Run.sleeps_history`
* `Run.outcomes_finish`, `Run.events_finish`, `Run.asked_finish`, `Run.sleeps_finish` — in a run
  that ends with a call, and the same for `Run.stopped`
* `Run.trace_whole`, `Run.asked_whole`, `Run.sleeps_whole` — in a whole run
* `Run.recorded_whole`, `Run.cancelled_whole` — the session in the end
-/

namespace Cadence

variable {σ α ε τ β : Type}

namespace Happening

/-- The delays of the sleeps in a trace, completed or not. -/
def asked (trace : List (Happening α ε)) : List Duration :=
  trace.filterMap fun
    | slept delay _ => some delay
    | _ => none

variable (a b : List (Happening α ε))

@[simp] theorem outcomes_append : outcomes (a ++ b) = outcomes a ++ outcomes b :=
  List.filterMap_append

@[simp] theorem events_append : events (a ++ b) = events a ++ events b :=
  List.filterMap_append

@[simp] theorem sleeps_append : sleeps (a ++ b) = sleeps a ++ sleeps b :=
  List.filterMap_append

@[simp] theorem asked_append : asked (a ++ b) = asked a ++ asked b :=
  List.filterMap_append

/-! What is logged is seen by none of them. -/

variable (entry : LogEntry)

@[simp] theorem outcomes_concat_logged : outcomes (a ++ [.logged entry]) = outcomes a :=
  (outcomes_append a _).trans (List.append_nil _)

@[simp] theorem events_concat_logged : events (a ++ [.logged entry]) = events a :=
  (events_append a _).trans (List.append_nil _)

@[simp] theorem sleeps_concat_logged : sleeps (a ++ [.logged entry]) = sleeps a :=
  (sleeps_append a _).trans (List.append_nil _)

@[simp] theorem asked_concat_logged : asked (a ++ [.logged entry]) = asked a :=
  (asked_append a _).trans (List.append_nil _)

end Happening

namespace Run

open Happening

variable (r : Run σ α ε τ β)

/-! ### In one call -/

theorem outcomes_callTrace (i : Nat) : outcomes (r.callTrace i) = [r.outcome i] := by
  by_cases h : r.Accepts i <;> simp [callTrace, outcomes, h]

theorem events_callTrace (i : Nat) :
    events (r.callTrace i) = if r.Accepts i then [r.event i] else [] := by
  by_cases h : r.Accepts i <;> simp [callTrace, events, h]

theorem asked_callTrace (i : Nat) : asked (r.callTrace i) = [] := by
  by_cases h : r.Accepts i <;> simp [callTrace, asked, h]

theorem sleeps_callTrace (i : Nat) : sleeps (r.callTrace i) = [] := by
  by_cases h : r.Accepts i <;> simp [callTrace, sleeps, h]

/-- What happens after the decision on the last call: a sleep is interrupted if there is one. -/
def lastTrace (k : Nat) : List (Happening α ε) :=
  if r.GoesOn k then [.slept (r.delay k) false, .logged (.interrupted (min (k + 1) maxCount))]
  else []

theorem outcomes_lastTrace (k : Nat) : outcomes (r.lastTrace k) = [] := by
  rw [lastTrace]
  split <;> rfl

theorem events_lastTrace (k : Nat) : events (r.lastTrace k) = [] := by
  rw [lastTrace]
  split <;> rfl

theorem asked_lastTrace (k : Nat) :
    asked (r.lastTrace k) = if r.GoesOn k then [r.delay k] else [] := by
  rw [lastTrace]
  split <;> rfl

theorem sleeps_lastTrace (k : Nat) : sleeps (r.lastTrace k) = [] := by
  rw [lastTrace]
  split <;> rfl

/-! ### Before a call -/

variable {r} in
/-- What shows one thing of each call shows a list of them. -/
theorem filterMap_history {γ : Type} {view : Happening α ε → Option γ} {f : Nat → γ} {n : Nat}
    (h : ∀ i < n, (r.callTrace i ++ [slept (r.delay i) true]).filterMap view = [f i]) :
    (r.history n).filterMap view = (List.range n).map f := by
  induction n with
  | zero => rfl
  | succ n ih =>
    rw [history_succ, List.filterMap_append, ih fun i hi => h i (Nat.lt_succ_of_lt hi),
      h n (Nat.lt_succ_self n), List.range_succ, List.map_append]
    rfl

theorem outcomes_history (n : Nat) : outcomes (r.history n) = (List.range n).map r.outcome := by
  refine filterMap_history fun i _ => ?_
  rw [List.filterMap_append, ← outcomes, outcomes_callTrace]
  rfl

theorem asked_history (n : Nat) : asked (r.history n) = (List.range n).map r.delay := by
  refine filterMap_history fun i _ => ?_
  rw [List.filterMap_append, ← asked, asked_callTrace]
  rfl

theorem sleeps_history (n : Nat) : sleeps (r.history n) = (List.range n).map r.delay := by
  refine filterMap_history fun i _ => ?_
  rw [List.filterMap_append, ← sleeps, sleeps_callTrace]
  rfl

variable {r}

theorem events_history {n : Nat} (h : r.Undisturbed n) :
    events (r.history n) = (List.range n).map r.event := by
  refine filterMap_history ?_
  intro i hi
  have haccepts := h.accepts i hi
  rw [List.filterMap_append, ← events, events_callTrace, if_pos haccepts]
  rfl

/-! ### In a run that ends with a call -/

variable (r) in
theorem trace_finish (k : Nat) :
    (r.finish k).trace = r.history k ++ (r.callTrace k ++ r.lastTrace k) := by
  by_cases h : r.GoesOn k <;> simp [finish, lastTrace, h]

variable (r) in
/-- Such a run returns as cancelled if it would go on after its last call. -/
theorem value_finish (k : Nat) :
    (r.finish k).value =
      if r.GoesOn k then .error .cancelled else r.operation.result r.outcome k := by
  by_cases h : r.GoesOn k <;> simp [finish, h]

variable (r) in
theorem world_finish (k : Nat) :
    (r.finish k).cycle.world = (r.position (r.decided k)).world := by
  by_cases h : r.GoesOn k <;> simp [finish, h, cycleAfter]

variable (r) in
theorem outcomes_finish (k : Nat) :
    outcomes (r.finish k).trace = (List.range (k + 1)).map r.outcome := by
  rw [trace_finish, outcomes_append, outcomes_append, outcomes_history, outcomes_callTrace,
    outcomes_lastTrace, List.range_succ, List.map_append]
  rfl

/-- The observer is told of one decision for each call, but of none for a last call whose outcome
is not accepted. -/
theorem events_finish {k : Nat} (h : r.Undisturbed k) :
    events (r.finish k).trace = (List.range (r.decided k)).map r.event := by
  rw [trace_finish, events_append, events_append, events_history h, events_lastTrace,
    List.append_nil, events_callTrace, decided]
  by_cases haccepts : r.Accepts k
  · rw [if_pos haccepts, if_pos haccepts, List.range_succ, List.map_append]
    rfl
  · rw [if_neg haccepts, if_neg haccepts, List.append_nil]

variable (r) in
/-- The sleeper is asked once between two calls, and once more if the run is cancelled then. -/
theorem asked_finish (k : Nat) :
    asked (r.finish k).trace = (List.range (if r.GoesOn k then k + 1 else k)).map r.delay := by
  rw [trace_finish, asked_append, asked_append, asked_history, asked_callTrace, List.nil_append,
    asked_lastTrace]
  by_cases h : r.GoesOn k
  · rw [if_pos h, if_pos h, List.range_succ, List.map_append]
    rfl
  · rw [if_neg h, if_neg h, List.append_nil]

variable (r) in
theorem sleeps_finish (k : Nat) : sleeps (r.finish k).trace = (List.range k).map r.delay := by
  rw [trace_finish, sleeps_append, sleeps_append, sleeps_history, sleeps_callTrace,
    sleeps_lastTrace, List.append_nil, List.append_nil]

/-! ### In a run that the check before a call stops -/

variable (r) in
theorem outcomes_stopped (k : Nat) :
    outcomes (r.stopped k).trace = (List.range k).map r.outcome := by
  rw [stopped, outcomes_concat_logged, outcomes_history]

theorem events_stopped {k : Nat} (h : r.Undisturbed k) :
    events (r.stopped k).trace = (List.range k).map r.event := by
  rw [stopped, events_concat_logged, events_history h]

variable (r) in
theorem asked_stopped (k : Nat) : asked (r.stopped k).trace = (List.range k).map r.delay := by
  rw [stopped, asked_concat_logged, asked_history]

variable (r) in
theorem sleeps_stopped (k : Nat) : sleeps (r.stopped k).trace = (List.range k).map r.delay := by
  rw [stopped, sleeps_concat_logged, sleeps_history]

/-! ### In a whole run -/

variable (r) in
/-- What happens in the last turn of a run: the check stops it, or there is a call. -/
def turnTrace (k : Nat) : List (Happening α ε) :=
  if r.CancelledBefore k then [.logged (.cancelled (min k maxCount))]
  else r.callTrace k ++ r.lastTrace k

variable (r) in
theorem trace_whole (k : Nat) : (r.whole k).trace = r.history k ++ r.turnTrace k := by
  rw [whole, turnTrace]
  split
  · rfl
  · exact r.trace_finish k

variable (r) in
theorem sleeps_turnTrace (k : Nat) : sleeps (r.turnTrace k) = [] := by
  rw [turnTrace]
  split
  · rfl
  · rw [sleeps_append, sleeps_callTrace, sleeps_lastTrace]
    rfl

variable (r) in
/-- The observer is told of one decision in a turn, at most. -/
theorem events_turnTrace (k : Nat) : events (r.turnTrace k) = [] ∨
    (¬ r.CancelledBefore k ∧ r.Accepts k) ∧ events (r.turnTrace k) = [r.event k] := by
  rw [turnTrace]
  split <;> rename_i hb
  · exact Or.inl rfl
  · rw [events_append, events_callTrace, events_lastTrace, List.append_nil]
    split <;> rename_i haccepts
    · exact Or.inr ⟨⟨hb, haccepts⟩, rfl⟩
    · exact Or.inl rfl

variable (r) in
/-- The sleeps that are completed are those between two turns. -/
theorem sleeps_whole (k : Nat) : sleeps (r.whole k).trace = (List.range k).map r.delay := by
  rw [whole]
  split
  · exact r.sleeps_stopped k
  · exact r.sleeps_finish k

variable (r) in
theorem asked_whole (k : Nat) : asked (r.whole k).trace =
    (List.range (if ¬ r.CancelledBefore k ∧ r.GoesOn k then k + 1 else k)).map r.delay := by
  rw [whole]
  split <;> rename_i hb
  · rw [asked_stopped, if_neg fun h => h.1 hb]
  · rw [asked_finish]
    simp only [hb, not_false_eq_true, true_and]

variable (r) in
theorem recordedAt_whole (k : Nat) : (r.whole k).cycle.session.recorded = r.recordedAt k := by
  rw [whole]
  split
  · rw [stopped, checked_cycleAt]
  · by_cases h : r.GoesOn k <;> simp [finish, h, cycleAfter]

variable (r) in
/-- The record of the sleeper grows by the completed sleeps. -/
theorem recorded_whole (k : Nat) :
    (r.whole k).cycle.session.recorded =
      r.runner.sleeper.record r.session.recorded (sleeps (r.whole k).trace) := by
  rw [recordedAt_whole, sleeps_whole, recordedAt]

theorem whole_of_lastCall {k : Nat} (h : r.LastCall k) : r.whole k = r.finish k := if_neg h.2

theorem whole_of_lastCheck {k : Nat} (h : r.LastCheck k) : r.whole k = r.stopped k := if_pos h.2

/-- After a run that ends with a call the session is cancelled exactly if it was cancelled in the
turn of that call. -/
theorem cancelled_finish {k : Nat} (h : r.LastCall k) :
    (r.finish k).cycle.session.cancelled = true ↔ r.CancelledIn k := by
  by_cases hgoes : r.GoesOn k
  · simp [finish, hgoes, cycleAfter, h.cancelledIn hgoes]
  · have hsleeper : ¬ r.CancelledBySleeper k := fun hs => hgoes hs.1
    have houtside : ¬ r.CancelledByOutside k := fun ho => hgoes ho.1
    simp [finish, hgoes, cycleAfter, cancelledByCall, CancelledIn, hsleeper, houtside]

/-- After a whole run the session is cancelled exactly if it was cancelled in the last turn or
before it. -/
theorem cancelled_whole {k : Nat} (h : r.LastTurn k) :
    (r.whole k).cycle.session.cancelled = true ↔ r.CancelledBefore k ∨ r.CancelledIn k := by
  by_cases hb : r.CancelledBefore k
  · rw [whole, if_pos hb, stopped, checked_cycleAt]
    exact iff_of_true (decide_eq_true hb) (Or.inl hb)
  · rw [whole, if_neg hb, cancelled_finish ⟨h, hb⟩, or_iff_right hb]

end Run

end Cadence
