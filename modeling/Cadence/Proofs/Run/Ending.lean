import Cadence.Proofs.Run.Polled
import Cadence.Proofs.Run.Projections

/-!
# How a run ends

One account of the end of a run for both ways of driving it. A run ends with its last turn, if it
has one, and otherwise goes on for ever. In that turn it is stopped by the check before a call, or
it makes its last call.

## Main definitions

* `Driver` — the two ways of driving a run
* `Run.upTo` — what a run has come to
* `Run.Ends` — how a run ends

## Main results

* `Run.ends_iff_lastTurn`, `Run.LastTurn.ends_iff`, `Run.ends_cases` — what a run has done when it
  ends
* `Run.upTo_eq_none` — a run without a last turn never ends
* `Run.isPrefix_trace_upTo`, `Run.exists_of_prefix_turns` — what can be seen of a run
* `Run.state_upTo` — as long as there is no result, the schedule has a state
-/

namespace Cadence

variable {σ α ε τ β : Type}

/-- A beginning of two lists one after the other ends in the first or in the second. -/
theorem isPrefix_append_cases {γ : Type} {t a b : List γ} (h : t <+: a ++ b) :
    t <+: a ∨ ∃ u, u <+: b ∧ t = a ++ u := by
  rcases List.prefix_or_prefix_of_prefix h (List.prefix_append a b) with hta | ⟨u, rfl⟩
  · exact Or.inl hta
  · exact Or.inr ⟨u, (List.prefix_append_right_inj a).mp h, rfl⟩

/-- A way of driving a run. -/
inductive Driver where
  /-- Turn after turn. -/
  | blocking
  /-- As a task that is polled. -/
  | polled (pace : Pace)

namespace Run

variable (r : Run σ α ε τ β)

/-- What a run has come to: in at most `n` turns, or in at most `n` polls. -/
def upTo (driver : Driver) (n : Nat) : Done r.job (Option (Except (RunError ε) β)) :=
  match driver with
  | .blocking => r.turns n
  | .polled pace => (r.job.task r.session r.world).run r.runner pace n

/-- A run ends, and `d` is what it has done. -/
def Ends (driver : Driver) (d : Done r.job (Except (RunError ε) β)) : Prop :=
  ∃ n, r.upTo driver n = ⟨d.trace, some d.value, d.cycle⟩

variable {r} {driver : Driver}

/-- By either driver, a run comes to what it has done in any number of turns. -/
theorem exists_upTo_eq_turns (r : Run σ α ε τ β) (driver : Driver) (n : Nat) :
    ∃ m, n ≤ m ∧ r.upTo driver m = r.turns n := by
  cases driver with
  | blocking => exact ⟨n, Nat.le_refl n, rfl⟩
  | polled pace =>
    obtain ⟨m, hm, h⟩ :=
      Task.exists_after_drive r.runner pace n (r.job.begin r.session r.world)
    refine ⟨m, hm, ?_⟩
    rw [upTo, Task.run_eq_after, Job.task, h]
    simp only [Phase.result?_ofResult]
    rfl

/-- What holds of runs that are polled holds by either driver: a task whose calls and sleeps are
never pending comes to each point between two turns. -/
theorem of_polled {P : Done r.job (Option (Except (RunError ε) β)) → Prop}
    (h : ∀ pace n, P (r.upTo (.polled pace) n)) (driver : Driver) (n : Nat) :
    P (r.upTo driver n) := by
  cases driver with
  | polled pace => exact h pace n
  | blocking =>
    obtain ⟨m, -, hm⟩ := exists_upTo_eq_turns r (.polled ⟨fun _ => 0, fun _ => 0⟩) n
    have hturns := h ⟨fun _ => 0, fun _ => 0⟩ m
    rw [hm] at hturns
    exact hturns

/-- By either driver, a run that has a result keeps it. -/
theorem upTo_of_result {m n : Nat} (hmn : m ≤ n) (h : (r.upTo driver m).value ≠ none) :
    r.upTo driver n = r.upTo driver m := by
  cases driver with
  | blocking => exact Cycle.drive_of_result r.runner hmn _ h
  | polled pace =>
    obtain ⟨k, rfl⟩ := Nat.exists_eq_add_of_le hmn
    simp only [upTo, Task.run_eq_after] at h ⊢
    obtain ⟨result, hresult⟩ := Option.ne_none_iff_exists'.mp h
    have hphase := Phase.eq_finished hresult
    rw [Task.after_add]
    generalize Task.after r.runner pace m (r.job.task r.session r.world) = a at hphase hresult
    obtain ⟨trace, phase, c⟩ := a
    obtain rfl : phase = .finished result := hphase
    simp [Task.after_finished]

/-- **What happens in a run that is under way** is a beginning of what happens in its turns. -/
theorem isPrefix_trace_upTo (r : Run σ α ε τ β) (driver : Driver) (n : Nat) :
    (r.upTo driver n).trace <+: (r.turns n).trace := by
  cases driver with
  | blocking => exact List.prefix_refl _
  | polled pace =>
    obtain ⟨m, hm, h⟩ :=
      Task.exists_after_drive r.runner pace n (r.job.begin r.session r.world)
    obtain ⟨k, rfl⟩ := Nat.exists_eq_add_of_le hm
    rw [Task.after_add] at h
    rw [upTo, Task.run_eq_after]
    exact ⟨_, congrArg Prod.fst h⟩

/-! ### What can be seen of a run -/

/-- What can be seen before a turn is all that happened before it, or what happened before an
earlier one and a part of what happened in the call of that one. -/
theorem eq_or_exists_of_prefix_history {t : List (Happening α ε)} {n : Nat}
    (h : t <+: r.history n) :
    t = r.history n ∨ ∃ i < n, ∃ u, u <+: r.callTrace i ∧ t = r.history i ++ u := by
  induction n with
  | zero => exact Or.inl (List.prefix_nil.mp h)
  | succ n ih =>
    rw [history_succ] at h
    rcases isPrefix_append_cases h with ht | ⟨u, hu, rfl⟩
    · rcases ih ht with rfl | ⟨i, hi, hseen⟩
      · exact Or.inr ⟨n, Nat.lt_succ_self n, [], List.nil_prefix, (List.append_nil _).symm⟩
      · exact Or.inr ⟨i, Nat.lt_succ_of_lt hi, hseen⟩
    · rcases List.prefix_concat_iff.mp hu with rfl | hu
      · exact Or.inl (r.history_succ n).symm
      · exact Or.inr ⟨n, Nat.lt_succ_self n, u, hu, rfl⟩

/-- **What can be seen of a run**: what happened before a turn that it reached, and a part of what
happened in that turn. -/
theorem exists_of_prefix_turns {t : List (Happening α ε)} {n : Nat} (h : t <+: (r.turns n).trace) :
    ∃ i, r.Undisturbed i ∧ ∃ u, u <+: r.turnTrace i ∧ t = r.history i ++ u := by
  have hhistory : ∀ {j}, r.Undisturbed j → t <+: r.history j →
      ∃ i, r.Undisturbed i ∧ ∃ u, u <+: r.turnTrace i ∧ t = r.history i ++ u := by
    intro j hj ht
    rcases eq_or_exists_of_prefix_history ht with rfl | ⟨i, hi, u, hu, rfl⟩
    · exact ⟨j, hj, [], List.nil_prefix, (List.append_nil _).symm⟩
    · refine ⟨i, fun l hl => hj l (Nat.lt_trans hl hi), u, ?_, rfl⟩
      rw [turnTrace, if_neg (hj i hi).1]
      exact hu.trans (List.prefix_append _ _)
  rcases undisturbed_or_lastTurn r n with hn | ⟨k, hk, hlast⟩
  · rw [turns_of_undisturbed hn] at h
    exact hhistory hn h
  · rw [turns_of_lastTurn hlast hk, trace_whole] at h
    rcases isPrefix_append_cases h with ht | ⟨u, hu, rfl⟩
    · exact hhistory hlast.1 ht
    · exact ⟨k, hlast.1, u, hu, rfl⟩

/-! ### The end -/

/-- What a run has done when it ends is what it has done in some number of turns. -/
theorem ends_iff_exists_turns {d : Done r.job (Except (RunError ε) β)} :
    r.Ends driver d ↔ ∃ n, r.turns n = ⟨d.trace, some d.value, d.cycle⟩ := by
  constructor
  · rintro ⟨n, hn⟩
    obtain ⟨m, hm, h⟩ := exists_upTo_eq_turns r driver n
    exact ⟨n, by rw [← h, upTo_of_result hm (by rw [hn]; simp), hn]⟩
  · rintro ⟨n, hn⟩
    obtain ⟨m, -, h⟩ := exists_upTo_eq_turns r driver n
    exact ⟨m, by rw [h, hn]⟩

/-- **The end of a run** is its last turn, whichever way it is driven. -/
theorem ends_iff_lastTurn {d : Done r.job (Except (RunError ε) β)} :
    r.Ends driver d ↔ ∃ k, r.LastTurn k ∧ d = r.whole k := by
  rw [ends_iff_exists_turns]
  constructor
  · rintro ⟨n, hn⟩
    rcases undisturbed_or_lastTurn r n with h | ⟨k, hk, hlast⟩
    · rw [turns_of_undisturbed h] at hn
      simp at hn
    · rw [turns_of_lastTurn hlast hk] at hn
      refine ⟨k, hlast, ?_⟩
      obtain ⟨trace, value, cycle⟩ := d
      simp only [Done.mk.injEq, Option.some.injEq] at hn
      simp [← hn.1, ← hn.2.1, ← hn.2.2]
  · rintro ⟨k, hlast, rfl⟩
    exact ⟨k + 1, turns_of_lastTurn hlast (Nat.lt_succ_self k)⟩

/-- There is only one thing that a run has done when it ends. -/
theorem LastTurn.ends_iff {k : Nat} (h : r.LastTurn k) {d : Done r.job (Except (RunError ε) β)} :
    r.Ends driver d ↔ d = r.whole k := by
  rw [ends_iff_lastTurn]
  constructor
  · rintro ⟨j, hj, rfl⟩
    rw [hj.unique h]
  · exact fun hd => ⟨k, h, hd⟩

theorem LastCall.ends_iff {k : Nat} (h : r.LastCall k) {d : Done r.job (Except (RunError ε) β)} :
    r.Ends driver d ↔ d = r.finish k := by
  rw [h.1.ends_iff, whole_of_lastCall h]

theorem LastCheck.ends_iff {k : Nat} (h : r.LastCheck k)
    {d : Done r.job (Except (RunError ε) β)} : r.Ends driver d ↔ d = r.stopped k := by
  rw [h.1.ends_iff, whole_of_lastCheck h]

/-- A run ends in one of two ways: the check before a call stops it, or it makes its last call. -/
theorem ends_cases {d : Done r.job (Except (RunError ε) β)} (h : r.Ends driver d) :
    (∃ k, r.LastCheck k ∧ d = r.stopped k) ∨ ∃ k, r.LastCall k ∧ d = r.finish k := by
  obtain ⟨k, hk, rfl⟩ := ends_iff_lastTurn.mp h
  by_cases hb : r.CancelledBefore k
  · exact Or.inl ⟨k, ⟨hk, hb⟩, whole_of_lastCheck ⟨hk, hb⟩⟩
  · exact Or.inr ⟨k, ⟨hk, hb⟩, whole_of_lastCall ⟨hk, hb⟩⟩

/-- A run without a last turn never ends. -/
theorem upTo_eq_none (h : ∀ k, ¬ r.LastTurn k) (n : Nat) : (r.upTo driver n).value = none := by
  cases hvalue : (r.upTo driver n).value with
  | none => rfl
  | some result =>
    have hends : r.Ends driver ⟨(r.upTo driver n).trace, result, (r.upTo driver n).cycle⟩ :=
      ⟨n, by rw [← hvalue]⟩
    obtain ⟨k, hk, -⟩ := ends_iff_lastTurn.mp hends
    exact absurd hk (h k)

/-! ### Runs that nobody cancels -/

/-- In a session that is never cancelled, nobody cancels it in a turn that is reached, or before
it. -/
theorem not_cancelled_of_never (hnever : ∀ n, (r.upTo driver n).cycle.session.cancelled = false)
    {i : Nat} (h : r.Undisturbed i) : ¬ r.CancelledBefore i ∧ ¬ r.CancelledIn i := by
  rw [← not_or]
  intro hcancelled
  have hlast : r.LastTurn i := by
    refine ⟨h, fun hi => ?_⟩
    exact hcancelled.elim hi.1 hi.2.2
  obtain ⟨n, hn⟩ : r.Ends driver (r.whole i) := hlast.ends_iff.mpr rfl
  have hsession := hnever n
  rw [hn] at hsession
  have hwhole := (cancelled_whole hlast).mpr hcancelled
  exact Bool.false_ne_true (hsession.symm.trans hwhole)

/-- So its last turn is that of a call after which it would not go on. -/
theorem LastTurn.lastCall_of_never {k : Nat} (h : r.LastTurn k)
    (hnever : ∀ n, (r.upTo driver n).cycle.session.cancelled = false) :
    r.LastCall k ∧ ¬ r.GoesOn k := by
  obtain ⟨hb, hc⟩ := not_cancelled_of_never hnever h.1
  exact ⟨⟨h, hb⟩, fun hgoes => h.2 ⟨hb, hgoes, hc⟩⟩

/-- In a session that is never cancelled, calls after which the run goes on are followed by
another. -/
theorem undisturbed_of_goesOn (hnever : ∀ n, (r.upTo driver n).cycle.session.cancelled = false)
    {n : Nat} (h : ∀ i < n, r.GoesOn i) : r.Undisturbed n := by
  induction n with
  | zero => exact fun i hi => absurd hi (Nat.not_lt_zero i)
  | succ n ih =>
    intro i hi
    have hearlier := ih fun i hi => h i (Nat.lt_succ_of_lt hi)
    rcases Nat.lt_succ_iff_lt_or_eq.mp hi with hlt | rfl
    · exact hearlier i hlt
    · obtain ⟨hb, hc⟩ := not_cancelled_of_never hnever hearlier
      exact ⟨hb, h i hi, hc⟩

/-- In turns that nobody cancels the session stays as it is: neither the effect, nor the observer,
nor the sleeper, nor somebody outside. -/
theorem not_cancelled_turns (h0 : r.session.cancelled = false)
    (heffect : ∀ i, (r.effect i).cancels = false)
    (hrunner : r.runner = ⟨.recording none, fun _ _ => false, .nobody⟩) (n : Nat) :
    (r.turns n).cycle.session.cancelled = false := by
  rcases undisturbed_or_lastTurn r n with h | ⟨k, hk, hlast⟩
  · rw [turns_of_undisturbed h]
    simp [cycleAt, h0]
  · rw [turns_of_lastTurn hlast hk]
    refine Bool.eq_false_iff.mpr fun h => ?_
    have hcancelled := (cancelled_whole hlast).mp h
    simp [CancelledBefore, CancelledIn, CancelledByEffect, CancelledByObserver, CancelledBySleeper,
      CancelledByOutside, h0, heffect, hrunner, Outside.nobody] at hcancelled

/-! ### The state of the schedule

A schedule that is complete has no state any more. A run never asks such a schedule. -/

/-- After a decision that continues, the schedule has a state. -/
theorem state_decide {job : Job σ α ε τ β} (runner : Runner α ε) (outcome : Except ε α)
    (c : Cycle job) (h : (c.decide runner outcome).value.continues = true) :
    (c.decide runner outcome).cycle.state ≠ none := by
  by_cases haccepts : job.plan.accepts outcome = true
  · cases hstate : c.state with
    | none => simp [Cycle.decide, haccepts, hstate] at h
    | some state =>
      simp only [Cycle.decide, haccepts, hstate, if_true] at h ⊢
      simp [h]
  · simp [Cycle.decide, haccepts] at h

/-- A run goes on after a call only if the decision on it continues. -/
theorem continues_of_call {c : Cycle r.job} {delay : Duration}
    (h : (c.call r.runner).value = .inr delay) :
    (Cycle.decide r.runner (r.job.effect c.calls).outcome
      { c with
        calls := c.calls + 1
        session := c.session.cancelIf (r.job.effect c.calls).cancels }).value.continues = true := by
  rw [Cycle.call] at h
  generalize Cycle.decide r.runner (r.job.effect c.calls).outcome _ = made at h ⊢
  refine Bool.of_not_eq_false fun hcontinues => ?_
  obtain ⟨result, hstops⟩ :=
    r.operation.exists_absorb_true c.kept (r.job.effect c.calls).outcome
  change r.job.plan.absorb c.kept (r.job.effect c.calls).outcome true = _ at hstops
  simp [Decision.isComplete_eq_not_continues, hcontinues, hstops] at h

/-- After a call after which a run goes on, the schedule has a state. -/
theorem state_call {c : Cycle r.job} {delay : Duration}
    (h : (c.call r.runner).value = .inr delay) : (c.call r.runner).cycle.state ≠ none := by
  have hsome := state_decide r.runner _ _ (continues_of_call h)
  rw [Cycle.call]
  generalize Cycle.decide r.runner (r.job.effect c.calls).outcome _ = made at hsome ⊢
  dsimp only
  split
  · exact hsome
  · exact hsome

/-- A poll that does not bring the result leaves the schedule with a state. -/
theorem state_poll (pace : Pace) {t : Task r.job}
    (hstate : t.phase.result? = none → t.cycle.state ≠ none)
    (hnone : (t.poll r.runner pace).2.phase.result? = none) :
    (t.poll r.runner pace).2.cycle.state ≠ none := by
  obtain ⟨phase, c⟩ := t
  have hsleep : ∀ delay, (c.sleep r.runner delay).cycle.state = c.state := by
    intro delay
    simp only [Cycle.sleep]
    split <;> rfl
  cases phase with
  | finished result => simp [Task.poll, Phase.result?] at hnone
  | turning =>
    by_cases hcancelled : (c.checked r.runner).session.cancelled = true
    · simp [Task.poll, hcancelled, Phase.result?] at hnone
    · simp only [Task.poll, hcancelled]
      exact hstate rfl
  | calling pending =>
    cases pending with
    | succ pending => exact hstate rfl
    | zero =>
      cases hcall : (c.call r.runner).value with
      | inl result => simp [Task.poll, hcall, Phase.result?] at hnone
      | inr delay => simpa [Task.poll, hcall] using state_call hcall
  | sleeping delay pending =>
    have hc : c.state ≠ none := hstate rfl
    simp only [Task.poll] at hnone ⊢
    split
    · exact hc
    · split
      · simpa [hsleep] using hc
      · simpa [hsleep] using hc

theorem state_after (pace : Pace) (n : Nat) {t : Task r.job}
    (hstate : t.phase.result? = none → t.cycle.state ≠ none)
    (hnone : (Task.after r.runner pace n t).2.phase.result? = none) :
    (Task.after r.runner pace n t).2.cycle.state ≠ none := by
  induction n generalizing t with
  | zero => exact hstate hnone
  | succ n ih => exact ih (fun h => state_poll pace hstate h) hnone

/-- **The schedule of a run that is under way has a state.** -/
theorem state_upTo {n : Nat} (h : (r.upTo driver n).value = none) :
    (r.upTo driver n).cycle.state ≠ none := by
  revert h
  refine of_polled (P := fun d => d.value = none → d.cycle.state ≠ none) (fun pace n hn => ?_)
    driver n
  simp only [upTo, Task.run_eq_after] at hn ⊢
  exact state_after pace n (fun _ => Option.some_ne_none _) hn

end Run

end Cadence
