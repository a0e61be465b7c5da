import Cadence.Proofs.Run.Ending
import Cadence.Schedule.Simple

/-!
# Runs that return the last outcome

A run of one of the six operations that repeat or retry, in a session that nobody cancels. It ends
with the first call whose outcome the operation does not accept or on which the schedule is
complete, and if there is no such call it never ends.

## Main definitions

* `Run.StopsAt` — which call that is
* `Run.StoppedAt` — what such a run has done when it ends
* `Run.recorded` — the same run, with a record of the steps of its schedule

## Main results

* `Run.lastTurn_iff_stopsAt` — the last turn of a run that nobody cancels
* `Run.ends_stoppedAt` — such a run ends there, and nowhere else
-/

namespace Cadence

variable {σ α ε τ β : Type}

namespace Run

/-! ### Keeping a record of the steps -/

/-- The same run, with a record in its world of the outcomes on which its schedule was stepped. -/
def recorded (r : Run σ α ε τ β) : Run (σ × List (Except ε α)) α ε τ β :=
  ⟨r.operation, r.policy.recorded, r.effect, r.runner, r.session, (r.world, [])⟩

variable (r : Run σ α ε τ β)

theorem position_recorded (i : Nat) :
    r.recorded.position i =
      ⟨(r.position i).state, (r.position i).context,
        ((r.position i).world, (List.range i).map r.outcome)⟩ :=
  r.policy.position_recorded r.outcome r.world i

theorem decision_recorded : r.recorded.decision = r.decision :=
  funext (r.policy.decisionAt_recorded r.outcome r.world)

theorem event_recorded : r.recorded.event = r.event := by
  funext i
  simp only [event, position_recorded, decision_recorded]
  rfl

theorem accepts_recorded (i : Nat) : r.recorded.Accepts i ↔ r.Accepts i := Iff.rfl

theorem goesOn_recorded (i : Nat) : r.recorded.GoesOn i ↔ r.GoesOn i := by
  rw [GoesOn, GoesOn, decision_recorded, accepts_recorded]

theorem cancelledIn_recorded (i : Nat) : r.recorded.CancelledIn i ↔ r.CancelledIn i := by
  simp only [CancelledIn, CancelledByObserver, CancelledBySleeper, CancelledByOutside,
    event_recorded, goesOn_recorded]
  rfl

theorem followed_recorded (i : Nat) : r.recorded.Followed i ↔ r.Followed i := by
  simp only [Followed, goesOn_recorded, cancelledIn_recorded]
  rfl

theorem lastCall_recorded (k : Nat) : r.recorded.LastCall k ↔ r.LastCall k := by
  simp only [LastCall, LastTurn, Undisturbed, followed_recorded]
  rfl

theorem callTrace_recorded : r.recorded.callTrace = r.callTrace := by
  funext i
  simp only [callTrace, event_recorded, decision_recorded, position_recorded]
  rfl

theorem history_recorded (n : Nat) : r.recorded.history n = r.history n := by
  simp only [history, callTrace_recorded, delay, decision_recorded]

theorem lastTrace_recorded (k : Nat) : r.recorded.lastTrace k = r.lastTrace k := by
  simp only [lastTrace, goesOn_recorded, delay, decision_recorded]

/-- A run with a record ends as it does without one, and the record has an outcome for each step. -/
theorem finish_recorded (k : Nat) :
    (r.recorded.finish k).trace = (r.finish k).trace ∧
      (r.recorded.finish k).value = (r.finish k).value ∧
      (r.recorded.finish k).cycle.world =
        ((r.finish k).cycle.world, (List.range (r.decided k)).map r.outcome) := by
  refine ⟨?_, ?_, ?_⟩
  · rw [trace_finish, trace_finish, history_recorded, callTrace_recorded, lastTrace_recorded]
  · rw [value_finish, value_finish]
    simp only [goesOn_recorded]
    rfl
  · have hdecided : r.recorded.decided k = r.decided k := rfl
    rw [world_finish, world_finish, position_recorded, hdecided]

/-! ### Where a run stops -/

variable {r} {driver : Driver}

/-- Call `k` is the first whose outcome the operation does not accept, or on which the schedule is
complete. -/
def StopsAt (r : Run σ α ε τ β) (k : Nat) : Prop :=
  (∀ i < k, r.Accepts i ∧ r.decision i ≠ .complete) ∧ (¬ r.Accepts k ∨ r.decision k = .complete)

theorem goesOn_iff (i : Nat) : r.GoesOn i ↔ r.Accepts i ∧ r.decision i ≠ .complete := by
  rw [GoesOn, ne_eq, ← Decision.continues_eq_false, Bool.not_eq_false]

/-- **The last turn of a run that nobody cancels** is that of the call with which it stops. -/
theorem lastTurn_iff_stopsAt (hnever : ∀ n, (r.upTo driver n).cycle.session.cancelled = false)
    (k : Nat) : r.LastTurn k ↔ r.StopsAt k := by
  constructor
  · intro hlast
    refine ⟨fun i hi => (goesOn_iff i).mp (hlast.1.goesOn i hi), ?_⟩
    have hgoes := (hlast.lastCall_of_never hnever).2
    rw [goesOn_iff] at hgoes
    by_cases haccepts : r.Accepts k
    · exact Or.inr (Decidable.not_not.mp fun hc => hgoes ⟨haccepts, hc⟩)
    · exact Or.inl haccepts
  · rintro ⟨hbefore, hlast⟩
    have hgoes : ∀ i < k, r.GoesOn i := fun i hi => (goesOn_iff i).mpr (hbefore i hi)
    refine ⟨undisturbed_of_goesOn hnever hgoes, ?_⟩
    intro hk
    obtain ⟨haccepts, hcontinues⟩ := (goesOn_iff k).mp hk.2.1
    exact hlast.elim (fun h => h haccepts) hcontinues

/-- What a run has done that stops with call `k` of its own accord. -/
structure StoppedAt (r : Run σ α ε Unit α) (driver : Driver) (k : Nat)
    (d : Done r.job (Except (RunError ε) α)) : Prop where
  /-- It returns the outcome of that call: its value, or its error as the failure of the run. -/
  value : d.value =
    match r.outcome k with
    | .ok value => .ok value
    | .error error => .error (.failed error)
  /-- The effect was called `k + 1` times. -/
  called : Happening.outcomes d.trace = (List.range (k + 1)).map r.outcome
  /-- The sleeper was asked once between two calls, for the delay of the decision. -/
  asked : Happening.asked d.trace = (List.range k).map fun i => (r.decision i).delay
  /-- All sleeps were completed. -/
  slept : Happening.sleeps d.trace = Happening.asked d.trace
  /-- The observer was told of one decision for each call, but of none for the last if its outcome
  was not accepted. -/
  noticed : Happening.events d.trace =
    (List.range (if r.Accepts k then k + 1 else k)).map r.event
  /-- For each of these decisions, and for nothing else, the schedule was stepped. -/
  stepped : ∃ d', r.recorded.Ends driver d' ∧ d'.trace = d.trace ∧ d'.value = d.value ∧
    d'.cycle.world =
      (d.cycle.world, (List.range (if r.Accepts k then k + 1 else k)).map r.outcome)

/-- **Runs that return the last outcome.** In a session that is never cancelled, a run ends with the
first call whose outcome the operation does not accept or on which the schedule is complete; if
there is none, the run never ends. As long as it is under way its schedule has a state, so a
schedule that is complete is not asked again. -/
theorem ends_stoppedAt (op : LastOperation α ε) (policy : Policy σ α ε) (effect : Nat → Call α ε)
    (runner : Runner α ε) (session : Session) (world : σ) (driver : Driver)
    (hnever : ∀ n, (upTo ⟨.last op, policy, effect, runner, session, world⟩
      driver n).cycle.session.cancelled = false) :
    let r : Run σ α ε Unit α := ⟨.last op, policy, effect, runner, session, world⟩
    (∀ k, r.StopsAt k →
        (∃ d, r.Ends driver d) ∧ ∀ d, r.Ends driver d → r.StoppedAt driver k d) ∧
      ((∀ k, ¬ r.StopsAt k) → ∀ n, (r.upTo driver n).value = none) ∧
      ∀ n, (r.upTo driver n).value = none → (r.upTo driver n).cycle.state ≠ none := by
  intro r
  refine ⟨fun k hk => ?_, fun hnone n => ?_, fun n => state_upTo⟩
  · have hturn := (lastTurn_iff_stopsAt hnever k).mpr hk
    obtain ⟨hlast, hgoes⟩ := hturn.lastCall_of_never hnever
    refine ⟨⟨_, hlast.ends_iff.mpr rfl⟩, ?_⟩
    intro d hd
    obtain rfl := hlast.ends_iff.mp hd
    have hasked : Happening.asked (r.finish k).trace = (List.range k).map r.delay := by
      rw [asked_finish, if_neg hgoes]
    obtain ⟨htrace, hvalue, hworld⟩ := r.finish_recorded k
    have hends : r.recorded.Ends driver _ :=
      ((r.lastCall_recorded k).mpr hlast).ends_iff.mpr rfl
    exact {
      value := by rw [value_finish, if_neg hgoes]; rfl
      called := r.outcomes_finish k
      asked := hasked
      slept := by rw [sleeps_finish, hasked]
      noticed := events_finish hturn.1
      stepped := ⟨_, hends, htrace, hvalue, hworld⟩ }
  · exact upTo_eq_none (fun k hk => hnone k ((lastTurn_iff_stopsAt hnever k).mp hk)) n

/-- A retry of an effect that fails once. -/
def failingOnce : Run Unit Nat String Unit Nat where
  operation := .last (.retrying .all)
  policy := (Schedule.recurs 2).policy
  effect i := ⟨if i = 0 then .error "down" else .ok 7, false⟩
  runner := ⟨.recording none, fun _ _ => false, .nobody⟩
  session := .fresh
  world := ()

theorem ends_stoppedAt_failingOnce :
    (∀ n, (failingOnce.upTo .blocking n).cycle.session.cancelled = false) ∧
      failingOnce.StopsAt 1 ∧
      ∃ d, failingOnce.Ends .blocking d ∧ d.value = .ok 7 ∧
        Happening.outcomes d.trace = [.error "down", .ok 7] ∧ Happening.asked d.trace = [0] := by
  have hnever : ∀ n, (failingOnce.upTo .blocking n).cycle.session.cancelled = false :=
    not_cancelled_turns rfl (fun _ => rfl) rfl
  have hstops : failingOnce.StopsAt 1 := by
    refine ⟨fun i hi => ?_, Or.inl (by decide)⟩
    obtain rfl : i = 0 := by omega
    decide
  obtain ⟨⟨d, hd⟩, hall⟩ :=
    (ends_stoppedAt _ _ failingOnce.effect _ _ _ .blocking hnever).1 1 hstops
  have hd' := hall d hd
  exact ⟨hnever, hstops, d, hd, hd'.value, hd'.called, hd'.asked⟩

end Run

end Cadence
