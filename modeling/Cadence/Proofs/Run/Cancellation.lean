import Cadence.Proofs.Run.Ending
import Cadence.Schedule.Simple

/-!
# Cancelled runs

What becomes of a run when its session is cancelled: before it begins, by its effect, by the
observer, by the sleeper, or by somebody outside. A run that is cancelled in the turn of a call
finishes that turn and makes no other call. Then it returns as cancelled if it would have gone on,
and otherwise what it would have returned anyway. Somebody outside can also cancel it between two
turns. Then the check before the next call stops it, and all its sleeps were completed.

Nothing takes a cancellation back, so what was cancelled once is stopped before its first call
whenever a runner is used again.

## Main definitions

* `Run.FirstCancelled` — in the turn of which call a run is cancelled
* `Run.CancelledAfter` — what such a run has done when it ends
* `Run.Untouched` — what a run has done that was stopped at once
* `Runner.Later` — the sessions a runner may come to

## Main results

* `Run.untouched_of_later` — what becomes of runs in a cancelled session
* `Run.ends_of_lastCheck` — what becomes of runs that are cancelled between two turns
* `Run.cancelled_iff_of_ends`, `Run.value_eq_cancelled_iff` — which runs end cancelled, and which
  return so
* `Run.firstCancelled_iff_turns` — without others, a run is cancelled where its session becomes so
* `Run.cancellation` — what becomes of runs that are cancelled without others, and of no more runs
-/

namespace Cadence

variable {σ α ε τ β : Type}

/-- The sessions a runner may come to from a session, in any number of runs that have ended or that
were given up. -/
inductive Runner.Later (runner : Runner α ε) (session : Session) : Session → Prop where
  /-- No run was made. -/
  | refl : Later runner session session
  /-- One more run was made. -/
  | run {σ τ β : Type} (r : Run σ α ε τ β) (driver : Driver) (n : Nat) :
    r.runner = runner → Later runner session r.session →
      Later runner session (r.upTo driver n).cycle.session

namespace Run

open Happening

variable {r : Run σ α ε τ β} {driver : Driver}

/-! ### Runs in a cancelled session -/

/-- A run was stopped before its first call. -/
structure Untouched (r : Run σ α ε τ β) (d : Done r.job (Except (RunError ε) β)) : Prop where
  /-- It returns as cancelled. -/
  value : d.value = .error .cancelled
  /-- The effect was not called. -/
  called : outcomes d.trace = []
  /-- The observer was not told of anything. -/
  noticed : events d.trace = []
  /-- The sleeper was not asked. -/
  asked : asked d.trace = []
  /-- So the session is as it was. -/
  session : d.cycle.session = r.session

/-- A cancelled session stops a run before its first call. -/
theorem lastCheck_zero (h0 : r.session.cancelled = true) : r.LastCheck 0 := by
  have hbefore : r.CancelledBefore 0 := Or.inl ⟨rfl, h0⟩
  exact ⟨⟨fun i hi => absurd hi (Nat.not_lt_zero i), fun hf => hf.1 hbefore⟩, hbefore⟩

theorem ends_iff_of_cancelled (h0 : r.session.cancelled = true)
    {d : Done r.job (Except (RunError ε) β)} : r.Ends driver d ↔ d = r.stopped 0 :=
  (lastCheck_zero h0).ends_iff

theorem session_stopped_zero (h0 : r.session.cancelled = true) :
    (r.stopped 0).cycle.session = r.session := by
  have hbegin : (r.cycleAt 0).session = r.session := by rw [← begin_eq]; rfl
  rw [stopped, Cycle.checked, Session.cancelIf_eq, hbegin, h0, Bool.true_or, ← h0]

theorem untouched_stopped (h0 : r.session.cancelled = true) : r.Untouched (r.stopped 0) :=
  ⟨rfl, rfl, rfl, rfl, session_stopped_zero h0⟩

/-- Whenever it is looked at, a run in a cancelled session has not changed it. -/
theorem session_upTo_of_cancelled (h0 : r.session.cancelled = true) (driver : Driver) (n : Nat) :
    (r.upTo driver n).cycle.session = r.session := by
  have hcheck := lastCheck_zero h0
  cases n with
  | zero => cases driver <;> rfl
  | succ n =>
    cases driver with
    | blocking =>
      rw [upTo, turns_of_lastTurn hcheck.1 (Nat.succ_pos n), whole_of_lastCheck hcheck]
      exact session_stopped_zero h0
    | polled pace =>
      have hfirst : (r.job.task r.session r.world).poll r.runner pace =
          ((r.stopped 0).trace, ⟨.finished (r.stopped 0).value, (r.stopped 0).cycle⟩) := by
        rw [Job.task, begin_eq, Task.poll]
        exact if_pos (by rw [checked_cycleAt]; exact decide_eq_true hcheck.2)
      rw [upTo, Task.run_eq_after, Task.after, hfirst]
      simp only [Task.after_finished]
      exact session_stopped_zero h0

/-- A session that is cancelled stays as it is. -/
theorem session_eq_of_later {runner : Runner α ε} {session later : Session}
    (h : runner.Later session later) (h0 : session.cancelled = true) : later = session := by
  induction h with
  | refl => rfl
  | run r driver n _ _ ih => rw [session_upTo_of_cancelled (by rw [ih]; exact h0), ih]

/-- **Runs in a cancelled session.** All that come later are stopped before their first call. -/
theorem untouched_of_later {session : Session} (h0 : session.cancelled = true)
    (hlater : r.runner.Later session r.session) (driver : Driver) :
    (∃ d, r.Ends driver d) ∧ ∀ d, r.Ends driver d → r.Untouched d := by
  have hsession : r.session.cancelled = true := by rw [session_eq_of_later hlater h0, h0]
  refine ⟨⟨_, (ends_iff_of_cancelled hsession).mpr rfl⟩, ?_⟩
  intro d hd
  obtain rfl := (ends_iff_of_cancelled hsession).mp hd
  exact untouched_stopped hsession

/-! ### Runs that are cancelled between two turns -/

/-- **Cancelled between two turns.** A run that the check after `k` calls stops returns as
cancelled. It went on after all of these calls, and completed the sleep after each. -/
theorem ends_of_lastCheck {k : Nat} (h : r.LastCheck k) (driver : Driver) :
    (∃ d, r.Ends driver d) ∧ ∀ d, r.Ends driver d → d.value = .error .cancelled ∧
      outcomes d.trace = (List.range k).map r.outcome ∧
      events d.trace = (List.range k).map r.event ∧
      sleeps d.trace = (List.range k).map r.delay ∧ asked d.trace = (List.range k).map r.delay := by
  refine ⟨⟨_, h.ends_iff.mpr rfl⟩, ?_⟩
  intro d hd
  obtain rfl := h.ends_iff.mp hd
  exact ⟨rfl, r.outcomes_stopped k, events_stopped h.1.1, r.sleeps_stopped k, r.asked_stopped k⟩

/-- A retry that somebody outside cancels after its second sleep. -/
example :
    let r : Run Unit Nat String Unit Nat :=
      ⟨.last (.retrying .all), (Schedule.recurs 3).policy, fun _ => ⟨.error "down", false⟩,
        ⟨.waiting, fun _ _ => false, ⟨fun calls => calls == 2, fun _ => false⟩⟩, .fresh, ()⟩
    let d := r.turns 3
    d.value = some (.error .cancelled) ∧ outcomes d.trace = [.error "down", .error "down"] ∧
      sleeps d.trace = [0, 0] ∧ (log d.trace).getLast? = some (.cancelled 2) :=
  ⟨rfl, rfl, rfl, rfl⟩

/-! ### Runs that are cancelled in a turn -/

/-- A run is first cancelled in the turn of call `k`: it comes to this call with its session not
cancelled, and its effect, the observer, the sleeper or somebody outside cancels the session in that
turn. -/
def FirstCancelled (r : Run σ α ε τ β) (k : Nat) : Prop :=
  ¬ r.CancelledBefore k ∧ r.Undisturbed k ∧ r.CancelledIn k

theorem FirstCancelled.lastCall {k : Nat} (h : r.FirstCancelled k) : r.LastCall k :=
  ⟨⟨h.2.1, fun hk => hk.2.2 h.2.2⟩, h.1⟩

/-- What a run has done when it ends that is cancelled in the turn of call `k`. -/
structure CancelledAfter (r : Run σ α ε τ β) (k : Nat) (d : Done r.job (Except (RunError ε) β)) :
    Prop where
  /-- It returns as cancelled if it would go on, and otherwise the result for that call. -/
  value : d.value =
    if r.Accepts k ∧ (r.decision k).continues = true then .error .cancelled
    else r.operation.result r.outcome k
  /-- That call was the last. -/
  called : outcomes d.trace = (List.range (k + 1)).map r.outcome
  /-- The observer was told of the decisions up to the one on that call. -/
  noticed : events d.trace = (List.range (if r.Accepts k then k + 1 else k)).map r.event
  /-- The sleeps before that call were completed, and no other. -/
  slept : sleeps d.trace = (List.range k).map r.delay
  /-- Of these the sleeper has a record, if it keeps one. -/
  recorded : d.cycle.session.recorded =
    r.runner.sleeper.record r.session.recorded ((List.range k).map r.delay)
  /-- The session is cancelled. -/
  cancelled : d.cycle.session.cancelled = true

theorem cancelledAfter_finish {k : Nat} (h : r.FirstCancelled k) :
    r.CancelledAfter k (r.finish k) where
  value := r.value_finish k
  called := r.outcomes_finish k
  noticed := events_finish h.2.1
  slept := r.sleeps_finish k
  recorded := by
    have hrecorded := r.recordedAt_whole k
    rwa [whole_of_lastCall h.lastCall] at hrecorded
  cancelled := (cancelled_finish h.lastCall).mpr h.2.2

/-! ### The check before a call -/

/-- Whether a run was stopped by the check before a call. -/
def stoppedBefore (trace : List (Happening α ε)) : Prop :=
  ∃ attempt, .logged (.cancelled attempt) ∈ trace

/-- In a turn that begins with a call nothing is logged by the check. -/
theorem not_stoppedBefore_turn (r : Run σ α ε τ β) (i : Nat) :
    ¬ stoppedBefore (r.callTrace i ++ r.lastTrace i) := by
  rintro ⟨attempt, h⟩
  rw [callTrace, lastTrace] at h
  split at h <;> split at h <;> simp at h

theorem not_stoppedBefore_history (r : Run σ α ε τ β) (n : Nat) :
    ¬ stoppedBefore (r.history n) := by
  rintro ⟨attempt, h⟩
  obtain ⟨i, -, hi⟩ := List.mem_flatMap.mp h
  rcases List.mem_append.mp hi with hi | hi
  · exact r.not_stoppedBefore_turn i ⟨attempt, List.mem_append_left _ hi⟩
  · simp at hi

/-- **The check before a call** stops a run only if it finds the session cancelled. -/
theorem exists_lastCheck_of_stoppedBefore {n : Nat}
    (h : stoppedBefore (r.upTo driver n).trace) : ∃ k, r.LastCheck k := by
  obtain ⟨attempt, hmem⟩ := h
  obtain ⟨i, hi, u, hu, ht⟩ := exists_of_prefix_turns (r.isPrefix_trace_upTo driver n)
  rw [ht] at hmem
  rcases List.mem_append.mp hmem with hmem | hmem
  · exact absurd ⟨attempt, hmem⟩ (r.not_stoppedBefore_history i)
  · have hturn := hu.mem hmem
    rw [turnTrace] at hturn
    split at hturn <;> rename_i hb
    · exact ⟨i, ⟨hi, fun hf => hf.1 hb⟩, hb⟩
    · exact absurd ⟨attempt, hturn⟩ (r.not_stoppedBefore_turn i)

/-! ### All cancelled runs -/

/-- A run that ends with its session cancelled was cancelled before a turn or in one. -/
theorem cancelled_iff_of_ends {d : Done r.job (Except (RunError ε) β)} (h : r.Ends driver d) :
    d.cycle.session.cancelled = true ↔ (∃ k, r.LastCheck k) ∨ ∃ k, r.FirstCancelled k := by
  obtain ⟨k, hk, rfl⟩ := ends_iff_lastTurn.mp h
  rw [cancelled_whole hk]
  constructor
  · intro hcancelled
    by_cases hb : r.CancelledBefore k
    · exact Or.inl ⟨k, hk, hb⟩
    · exact Or.inr ⟨k, hb, hk.1, hcancelled.resolve_left hb⟩
  · rintro (⟨j, hj⟩ | ⟨j, hj⟩)
    · rw [hk.unique hj.1]
      exact Or.inl hj.2
    · rw [hk.unique hj.lastCall.1]
      exact Or.inr hj.2.2

/-- A run returns as cancelled only if it was cancelled before a turn, or in the turn of a call
after which it would go on. -/
theorem value_eq_cancelled_iff {d : Done r.job (Except (RunError ε) β)} (h : r.Ends driver d) :
    d.value = .error .cancelled ↔
      (∃ k, r.LastCheck k) ∨ ∃ k, r.FirstCancelled k ∧ r.GoesOn k := by
  rcases ends_cases h with ⟨k, hk, rfl⟩ | ⟨k, hk, rfl⟩
  · exact iff_of_true rfl (Or.inl ⟨k, hk⟩)
  · rw [value_finish]
    constructor
    · intro hvalue
      split at hvalue <;> rename_i hgoes
      · exact Or.inr ⟨k, ⟨hk.2, hk.1.1, hk.cancelledIn hgoes⟩, hgoes⟩
      · exact absurd hvalue (r.operation.result_ne_cancelled r.outcome k)
    · rintro (⟨j, hj⟩ | ⟨j, hj, hgoes⟩)
      · exact absurd (hk.1.unique hj.1 ▸ hj.2) hk.2
      · rw [hk.1.unique hj.lastCall.1, if_pos hgoes]

/-! ### Runs that nobody outside cancels -/

theorem cancelledBefore_iff_of_nobody (h : r.runner.outside = .nobody) (k : Nat) :
    r.CancelledBefore k ↔ k = 0 ∧ r.session.cancelled = true := by
  rw [CancelledBefore, h]
  exact or_iff_left Bool.false_ne_true

theorem exists_lastCheck_iff_of_nobody (h : r.runner.outside = .nobody) :
    (∃ k, r.LastCheck k) ↔ r.session.cancelled = true := by
  constructor
  · rintro ⟨k, hk⟩
    exact ((cancelledBefore_iff_of_nobody h k).mp hk.2).2
  · exact fun h0 => ⟨0, lastCheck_zero h0⟩

/-- A run is first cancelled in the turn after which its session is cancelled and before which it is
not. -/
theorem firstCancelled_iff_turns (h : r.runner.outside = .nobody) (k : Nat) :
    r.FirstCancelled k ↔ (r.turns k).cycle.session.cancelled = false ∧
      (r.turns (k + 1)).cycle.session.cancelled = true := by
  have hat : (r.cycleAt k).session.cancelled = true ↔ r.CancelledBefore k := by
    rw [cancelledBefore_iff_of_nobody h]
    simp [cycleAt]
  constructor
  · intro hfirst
    have hturn := hfirst.lastCall.1
    obtain ⟨hb, hbefore, hin⟩ := hfirst
    rw [turns_of_undisturbed hbefore, turns_of_lastTurn hturn (Nat.lt_succ_self k)]
    exact ⟨Bool.eq_false_iff.mpr (mt hat.mp hb), (cancelled_whole hturn).mpr (Or.inr hin)⟩
  · rintro ⟨hbefore, hafter⟩
    rcases undisturbed_or_lastTurn r (k + 1) with hall | ⟨j, hj, hlast⟩
    · rw [turns_of_undisturbed hall] at hafter
      exact absurd hafter Bool.false_ne_true
    · rw [turns_of_lastTurn hlast hj] at hafter
      rcases Nat.lt_succ_iff_lt_or_eq.mp hj with hlt | rfl
      · -- the run had already ended before turn `k`, so that turn changed nothing
        rw [turns_of_lastTurn hlast hlt, hafter] at hbefore
        exact absurd hbefore.symm Bool.false_ne_true
      · rw [turns_of_undisturbed hlast.1] at hbefore
        have hb : ¬ r.CancelledBefore j := fun hb => Bool.eq_false_iff.mp hbefore (hat.mpr hb)
        exact ⟨hb, hlast.1, ((cancelled_whole hlast).mp hafter).resolve_left hb⟩

/-- **Cancelled runs.** Let a run have a sleeper that keeps a record, and let nobody outside cancel
its session. If that is cancelled when the run begins, the run is stopped at once, and so are all
later ones of its runner. If it is first cancelled in the turn of a call, the run ends with that
call; it is the effect, the observer or the sleeper that cancelled it. A run returns as cancelled in
no other case, and the check before a call stops no other run than one whose session was cancelled
when it began. -/
theorem cancellation (op : Operation α ε τ β) (policy : Policy σ α ε) (effect : Nat → Call α ε)
    (cancelAfter : Option Nat) (observer : Nat → Event α ε → Bool) (session : Session) (world : σ)
    (driver : Driver) :
    let r : Run σ α ε τ β :=
      ⟨op, policy, effect, ⟨.recording cancelAfter, observer, .nobody⟩, session, world⟩
    (session.cancelled = true →
      ((∃ d, r.Ends driver d) ∧ ∀ d, r.Ends driver d → r.Untouched d) ∧
      ∀ {σ' τ' β' : Type} (r' : Run σ' α ε τ' β') (driver' : Driver), r'.runner = r.runner →
        r.runner.Later session r'.session →
          (∃ d, r'.Ends driver' d) ∧ ∀ d, r'.Ends driver' d → r'.Untouched d) ∧
    (∀ k, r.FirstCancelled k →
      (∃ d, r.Ends driver d) ∧ ∀ d, r.Ends driver d → r.CancelledAfter k d) ∧
    (∀ k, r.FirstCancelled k ↔ (r.turns k).cycle.session.cancelled = false ∧
      (r.turns (k + 1)).cycle.session.cancelled = true) ∧
    (∀ d, r.Ends driver d → (d.value = .error .cancelled ↔
      session.cancelled = true ∨ ∃ k, r.FirstCancelled k ∧ r.GoesOn k)) ∧
    ∀ n, stoppedBefore (r.upTo driver n).trace → session.cancelled = true := by
  intro r
  have hnobody : r.runner.outside = .nobody := rfl
  refine ⟨fun h0 => ⟨?_, ?_⟩, ?_, firstCancelled_iff_turns hnobody, ?_, ?_⟩
  · exact untouched_of_later h0 .refl driver
  · intro σ' τ' β' r' driver' hrunner hlater
    rw [← hrunner] at hlater
    exact untouched_of_later h0 hlater driver'
  · intro k hk
    refine ⟨⟨_, hk.lastCall.ends_iff.mpr rfl⟩, ?_⟩
    intro d hd
    obtain rfl := hk.lastCall.ends_iff.mp hd
    exact cancelledAfter_finish hk
  · intro d hd
    have hcancelled := value_eq_cancelled_iff hd
    rwa [exists_lastCheck_iff_of_nobody hnobody] at hcancelled
  · intro n hn
    exact (exists_lastCheck_iff_of_nobody hnobody).mp (exists_lastCheck_of_stoppedBefore hn)

/-- A retry that is cancelled instead of taking its second sleep. -/
def cancelledRetry : Run Unit Nat String Unit Nat where
  operation := .last (.retrying .all)
  policy := (Schedule.recurs 3).policy
  effect _ := ⟨.error "down", false⟩
  runner := ⟨.recording (some 1), fun _ _ => false, .nobody⟩
  session := .fresh
  world := ()

theorem cancellation_cancelledRetry :
    cancelledRetry.FirstCancelled 1 ∧ ∃ d, cancelledRetry.Ends .blocking d ∧
      d.value = .error .cancelled ∧ outcomes d.trace = [.error "down", .error "down"] ∧
      d.cycle.session.recorded = [0] := by
  have hfirst : cancelledRetry.FirstCancelled 1 := by
    refine ⟨by decide, fun i hi => ?_, Or.inr (Or.inr (Or.inl (by decide)))⟩
    obtain rfl : i = 0 := by omega
    decide
  obtain ⟨⟨d, hd⟩, hall⟩ := (cancellation (.last (.retrying .all)) cancelledRetry.policy
    cancelledRetry.effect (some 1) cancelledRetry.runner.observer .fresh () .blocking).2.1 1 hfirst
  have hd' := hall d hd
  exact ⟨hfirst, d, hd, hd'.value, hd'.called, hd'.recorded⟩

end Run

end Cadence
