import Cadence.Proofs.Run.Progress
import Cadence.Run.Task

/-!
# Polled runs

A run that is polled as a task does the same as one that takes its turns without a pause, however
long its calls and sleeps are pending: it comes to every point at which the other stands between
two turns, and on its way there it does nothing else.

## Main definitions

* `Task.after` — a task after a number of polls

## Main results

* `Task.exists_after_turn`, `Task.exists_after_drive` — enough polls do what turns do
* `Task.run_eq_after` — a task that is polled up to its result
-/

namespace Cadence

variable {σ α ε τ β : Type}

/-- What is to be done next in a run that has come to a result, or not. -/
def Phase.ofResult : Option (Except (RunError ε) β) → Phase ε β
  | some result => .finished result
  | none => .turning

@[simp] theorem Phase.result?_ofResult (result : Option (Except (RunError ε) β)) :
    (Phase.ofResult result).result? = result := by
  cases result <;> rfl

theorem Phase.eq_finished {phase : Phase ε β} {result : Except (RunError ε) β}
    (h : phase.result? = some result) : phase = .finished result := by
  cases phase <;> simp_all [result?]

/-! ### Poll after poll -/

namespace Task

variable {job : Job σ α ε τ β} (runner : Runner α ε) (pace : Pace)

/-- What happens in exactly `n` polls, and the task after them. A finished task stays as it is. -/
def after : Nat → Task job → List (Happening α ε) × Task job
  | 0, t => ([], t)
  | n + 1, t =>
    let polled := t.poll runner pace
    let rest := after n polled.2
    (polled.1 ++ rest.1, rest.2)

theorem after_add (m n : Nat) (t : Task job) :
    after runner pace (m + n) t =
      ((after runner pace m t).1 ++ (after runner pace n (after runner pace m t).2).1,
        (after runner pace n (after runner pace m t).2).2) := by
  induction m generalizing t with
  | zero => simp [after]
  | succ m ih => rw [show m + 1 + n = m + n + 1 by omega]; simp [after, ih]

theorem after_finished (n : Nat) (result : Except (RunError ε) β) (c : Cycle job) :
    after runner pace n ⟨.finished result, c⟩ = ([], ⟨.finished result, c⟩) := by
  induction n with
  | zero => rfl
  | succ n ih => simp [after, poll, ih]

/-- A task is polled up to its result, so polls beyond it do not matter. -/
theorem run_eq_after (n : Nat) (t : Task job) :
    t.run runner pace n =
      ⟨(after runner pace n t).1, (after runner pace n t).2.phase.result?,
        (after runner pace n t).2.cycle⟩ := by
  induction n generalizing t with
  | zero => rfl
  | succ n ih =>
    simp only [run]
    split
    · rename_i result hresult
      obtain ⟨phase, c⟩ := t
      obtain rfl : phase = .finished result := Phase.eq_finished hresult
      rw [after_finished]
      rfl
    · rw [ih]
      rfl

/-! ### Polls and turns -/

/-- A pending call comes to its last poll. -/
theorem after_calling (n : Nat) (c : Cycle job) :
    after runner pace n ⟨.calling n, c⟩ = ([], ⟨.calling 0, c⟩) := by
  induction n with
  | zero => rfl
  | succ n ih => simp [after, poll, ih]

/-- A sleep comes to its end, pending or not. -/
theorem exists_after_sleeping (delay : Duration) (pending : Nat) (c : Cycle job) :
    ∃ n, 0 < n ∧ after runner pace n ⟨.sleeping delay pending, c⟩ =
      ((c.sleep runner delay).trace,
        ⟨.ofResult (c.sleep runner delay).value, (c.sleep runner delay).cycle⟩) := by
  have hend : ∀ pending,
      (runner.sleeper.takesTime && !c.session.cancelled && pending != 0) = false →
      after runner pace 1 ⟨.sleeping delay pending, c⟩ =
        ((c.sleep runner delay).trace,
          ⟨.ofResult (c.sleep runner delay).value, (c.sleep runner delay).cycle⟩) := by
    intro pending h
    simp only [after, poll, h, Bool.false_eq_true, if_false, List.append_nil]
    cases (c.sleep runner delay).value <;> rfl
  induction pending with
  | zero => exact ⟨1, Nat.one_pos, hend 0 (by simp)⟩
  | succ pending ih =>
    cases h : (runner.sleeper.takesTime && !c.session.cancelled) with
    | false => exact ⟨1, Nat.one_pos, hend _ (by simp [h])⟩
    | true =>
      obtain ⟨n, -, hn⟩ := ih
      refine ⟨1 + n, by omega, ?_⟩
      have hone : after runner pace 1 ⟨.sleeping delay (pending + 1), c⟩ =
          ([], ⟨.sleeping delay pending, c⟩) := by
        simp [after, poll, h]
      rw [after_add, hone, hn]
      rfl

/-- Enough polls take a turn. -/
theorem exists_after_turn (c : Cycle job) :
    ∃ n, 0 < n ∧ after runner pace n ⟨.turning, c⟩ =
      ((c.turn runner).trace, ⟨.ofResult (c.turn runner).value, (c.turn runner).cycle⟩) := by
  have hfirst : after runner pace 1 ⟨.turning, c⟩ = poll runner pace ⟨.turning, c⟩ := by
    simp [after]
  simp only [Cycle.turn]
  simp only [poll] at hfirst
  generalize c.checked runner = c at hfirst ⊢
  by_cases hcancelled : c.session.cancelled
  · rw [if_pos hcancelled] at hfirst
    refine ⟨1, Nat.one_pos, ?_⟩
    rw [hfirst, if_pos hcancelled]
    rfl
  · rw [if_neg hcancelled] at hfirst
    have hcalling := after_calling runner pace (pace.call c.calls) c
    simp only [if_neg hcancelled]
    cases hcall : (c.call runner).value with
    | inl result =>
      have hlast : after runner pace 1 ⟨.calling 0, c⟩ =
          ((c.call runner).trace, ⟨.finished result, (c.call runner).cycle⟩) := by
        simp [after, poll, hcall]
      refine ⟨1 + pace.call c.calls + 1, by omega, ?_⟩
      rw [after_add, after_add, hfirst, hcalling, hlast]
      rfl
    | inr delay =>
      have hlast : after runner pace 1 ⟨.calling 0, c⟩ =
          ((c.call runner).trace,
            ⟨.sleeping delay (pace.sleep (c.call runner).cycle.calls), (c.call runner).cycle⟩) := by
        simp [after, poll, hcall]
      obtain ⟨n, -, hn⟩ := exists_after_sleeping runner pace delay
        (pace.sleep (c.call runner).cycle.calls) (c.call runner).cycle
      refine ⟨1 + pace.call c.calls + 1 + n, by omega, ?_⟩
      rw [after_add, after_add, after_add, hfirst, hcalling, hlast, hn]
      rfl

/-- **Enough polls do what a number of turns does.** They are at least as many polls as turns. -/
theorem exists_after_drive (n : Nat) (c : Cycle job) :
    ∃ m, n ≤ m ∧ after runner pace m ⟨.turning, c⟩ =
      ((c.drive runner n).trace,
        ⟨.ofResult (c.drive runner n).value, (c.drive runner n).cycle⟩) := by
  induction n generalizing c with
  | zero => exact ⟨0, Nat.le_refl 0, rfl⟩
  | succ n ih =>
    obtain ⟨m, hm, hturn⟩ := exists_after_turn runner pace c
    simp only [Cycle.drive]
    cases hvalue : (c.turn runner).value with
    | some result =>
      refine ⟨m + (n + 1), by omega, ?_⟩
      rw [after_add, hturn, hvalue, Phase.ofResult, after_finished]
      simp
    | none =>
      obtain ⟨m', hm', hrest⟩ := ih (c.turn runner).cycle
      refine ⟨m + m', by omega, ?_⟩
      rw [after_add, hturn, hvalue, Phase.ofResult, hrest]

end Task

end Cadence
