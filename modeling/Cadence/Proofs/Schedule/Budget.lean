import Cadence.Proofs.Schedule.Always

/-!
# Schedules with a budget

A limit on the sum of the delays stops a schedule exactly if the delays it would make without the
limit add up to that much. Until then the limit changes nothing, so the course with the limit can be
compared with the course without it.

## Main definitions

* `Schedule.spent` — the exact sum of the first delays of a schedule

## Main results

* `Schedule.nanos_elapsed_position` — the context adds up the delays, as far as there is room
* `Schedule.completes_boxed` — a schedule in a place takes the same course
* `Schedule.completes_maxCumulativeDelay_iff` — when a schedule with a limit completes
* `Schedule.DelaysFrom.exists_le_spent`, `Schedule.Idle.spent_eq_zero` — how far delays add up
-/

namespace Cadence

namespace Schedule

variable {σ : Type} {s : Schedule σ} {world : σ} {limit : Duration}

/-- The exact sum of the first `n` delays of a schedule, in nanoseconds. -/
def spent (s : Schedule σ) (world : σ) : Nat → Nat
  | 0 => 0
  | n + 1 => spent s world n + (s.decisionAt world n).delay.nanos

theorem spent_succ (s : Schedule σ) (world : σ) (n : Nat) :
    s.spent world (n + 1) = s.spent world n + (s.decisionAt world n).delay.nanos := rfl

/-- The context has the sum of the delays, cut off at the longest duration. -/
theorem nanos_elapsed_position (s : Schedule σ) (world : σ) (n : Nat) :
    (s.position world n).context.elapsed.nanos = min (s.spent world n) Duration.maxNanos := by
  induction n with
  | zero => rfl
  | succ n ih =>
    show ((s.position world n).context.elapsed + (s.decisionAt world n).delay).nanos = _
    rw [Duration.nanos_add, ih, spent_succ]
    omega

/-! ### Schedules held in a place -/

/-- Where a schedule held in a place stands. -/
theorem position_boxed (s : Schedule σ) (world : σ) (n : Nat) :
    s.boxed.position world n =
      let pos := s.position world n
      ⟨some pos.state, pos.context, pos.world⟩ := by
  induction n with
  | zero => rfl
  | succ n ih =>
    rw [position_succ, position_succ, stepAt, ih]
    rfl

theorem decisionAt_boxed (s : Schedule σ) (world : σ) (n : Nat) :
    s.boxed.decisionAt world n = s.decisionAt world n := by
  rw [decisionAt, stepAt, position_boxed]
  rfl

theorem completes_boxed : s.boxed.Completes world ↔ s.Completes world := by
  simp only [completes_iff_not_forall, decisionAt_boxed]

/-! ### Up to the limit -/

/-- With a limit, a decision that continues is the one without it, and there was room for it. -/
theorem step_of_continues {state : s.State} {context : Context}
    (h : ((s.maxCumulativeDelay limit).step state context world).decision.continues = true) :
    context.elapsed < limit ∧
      (s.maxCumulativeDelay limit).step state context world = s.step state context world := by
  simp only [maxCumulativeDelay] at h ⊢
  by_cases hspent : limit ≤ context.elapsed
  · rw [if_pos hspent] at h
    exact absurd h Bool.false_ne_true
  · rw [if_neg hspent] at h ⊢
    refine ⟨Duration.not_le.mp hspent, ?_⟩
    split at h
    · rfl
    · split at h
      · exact absurd h Bool.false_ne_true
      · rename_i hdelay hroom
        rw [if_neg hroom]

/-- As long as there is room for the next delay, the limit changes nothing. -/
theorem step_of_room {state : s.State} {context : Context} (hspent : context.elapsed < limit)
    (hroom : context.elapsed + (s.step state context world).decision.delay ≤ limit) :
    (s.maxCumulativeDelay limit).step state context world = s.step state context world := by
  simp only [maxCumulativeDelay]
  rw [if_neg (Duration.not_le.mpr hspent)]
  cases hdelay : (s.step state context world).decision.delay? with
  | none => rfl
  | some delay =>
    rw [Decision.delay, hdelay] at hroom
    exact if_neg (Duration.not_lt.mpr hroom)

/-- As long as a schedule with a limit continues, it stands where it would without the limit. -/
theorem position_of_continues {n : Nat}
    (h : ∀ i < n, ((s.maxCumulativeDelay limit).decisionAt world i).continues = true) :
    (s.maxCumulativeDelay limit).position world n = s.position world n := by
  induction n with
  | zero => rfl
  | succ n ih =>
    have hposition := ih fun i hi => h i (Nat.lt_succ_of_lt hi)
    have hn := h n (Nat.lt_succ_self n)
    rw [decisionAt, stepAt, hposition] at hn
    rw [position_succ, position_succ, stepAt, hposition, (step_of_continues hn).2]
    rfl

/-- As long as its delays stay below the limit, a schedule that continues without the limit does so
with it. -/
theorem continues_of_spent_lt {n : Nat} (hs : (s.decisionAt world n).continues = true)
    (hspent : s.spent world (n + 1) < limit.nanos)
    (hposition : (s.maxCumulativeDelay limit).position world n = s.position world n) :
    ((s.maxCumulativeDelay limit).decisionAt world n).continues = true := by
  have helapsed := nanos_elapsed_position s world n
  have hsum := spent_succ s world n
  have hlimit := limit.nanos_le_maxNanos
  have helapsed_lt : (s.position world n).context.elapsed < limit := by
    rw [Duration.lt_def]
    omega
  have hroom : (s.position world n).context.elapsed + (s.decisionAt world n).delay ≤ limit := by
    rw [Duration.le_def, Duration.nanos_add]
    omega
  rw [decisionAt, stepAt, hposition, step_of_room helapsed_lt hroom]
  exact hs

/-- A schedule with a limit goes on for ever exactly if it does so without the limit and its delays
never add up to that much. -/
theorem continues_maxCumulativeDelay_iff :
    (∀ n, ((s.maxCumulativeDelay limit).decisionAt world n).continues = true) ↔
      (∀ n, (s.decisionAt world n).continues = true) ∧ ∀ n, s.spent world n < limit.nanos := by
  constructor
  · intro h
    have hposition := fun n => position_of_continues fun i (_ : i < n) => h i
    have hstep := fun n => step_of_continues (by
      have hn := h n
      rw [decisionAt, stepAt, hposition] at hn
      exact hn)
    refine ⟨fun n => ?_, fun n => ?_⟩
    · have hn := h n
      rw [decisionAt, stepAt, hposition, (hstep n).2] at hn
      exact hn
    · have hroom := (hstep n).1
      rw [Duration.lt_def, nanos_elapsed_position] at hroom
      have hlimit := limit.nanos_le_maxNanos
      omega
  · rintro ⟨hs, hspent⟩ n
    have hall : ∀ i < n + 1,
        ((s.maxCumulativeDelay limit).decisionAt world i).continues = true := by
      induction n + 1 with
      | zero => exact fun i hi => absurd hi (Nat.not_lt_zero i)
      | succ m ih =>
        intro i hi
        rcases Nat.lt_succ_iff_lt_or_eq.mp hi with hi | rfl
        · exact ih i hi
        · exact continues_of_spent_lt (hs i) (hspent (i + 1)) (position_of_continues ih)
    exact hall n (Nat.lt_succ_self n)

/-- **When a schedule with a limit completes**: if it does so without the limit, or if the delays it
makes without the limit add up to that much. -/
theorem completes_maxCumulativeDelay_iff :
    (s.maxCumulativeDelay limit).Completes world ↔
      s.Completes world ∨ ∃ n, limit.nanos ≤ s.spent world n := by
  rw [completes_iff_not_forall, completes_iff_not_forall, continues_maxCumulativeDelay_iff,
    Classical.not_and_iff_not_or_not]
  refine or_congr_right ?_
  rw [Classical.not_forall]
  exact exists_congr fun n => Nat.not_lt

/-! ### How far delays add up -/

/-- Delays with a lower bound that is not zero add up to any total. -/
theorem DelaysFrom.exists_le_spent {least : Duration} (h : s.DelaysFrom least)
    (hleast : 0 < least.nanos) (world : σ) (total : Nat) : ∃ n, total ≤ s.spent world n := by
  have hstarted : ∀ n, (s.position world (n + 1)).context.hasNotStarted = false := by
    intro n
    rw [Context.hasNotStarted, position_succ]
    exact Bool.and_false _
  have hsum : ∀ n, least.nanos * n ≤ s.spent world (n + 1) := by
    intro n
    induction n with
    | zero => exact Nat.zero_le _
    | succ n ih =>
      have hdelay := Always.decisionAt h world (n + 1) (hstarted n)
      rw [Duration.le_def] at hdelay
      rw [spent_succ, Nat.mul_succ]
      omega
  exact ⟨total + 1, Nat.le_trans (Nat.le_mul_of_pos_left total hleast) (hsum total)⟩

/-- Delays that take no time do not add up to anything. -/
theorem Idle.spent_eq_zero (h : s.Idle) (world : σ) (n : Nat) : s.spent world n = 0 := by
  induction n with
  | zero => rfl
  | succ n ih => rw [spent_succ, ih, Always.decisionAt h world n, Duration.nanos_zero]

end Schedule

end Cadence
