import Cadence.Proofs.Run.DryRun

/-!
# Schedules with a gate

A gate lets a schedule decide as long as a test of the outcomes comes out right, and is complete as
soon as it does not. Until then it changes nothing, so a schedule with a gate makes the first
decisions of the schedule, and one that is complete perhaps.

## Main definitions

* `Schedule.Steers` — a policy is a schedule, with a gate or without

## Main results

* `Schedule.position_gated` — as long as it continues, a schedule with a gate stands where it does
  without it
* `Schedule.Steers.decisionAt_eq` — and decides the same
* `Schedule.CompletesAt.countP_le` — how many decisions continue in a run
-/

namespace Cadence

variable {σ α ε τ β : Type}

namespace Schedule

variable {s : Schedule σ} {world : σ}

/-- The policies that are made of a schedule: the schedule itself, and the schedule with a gate. -/
inductive Steers (s : Schedule σ) : Policy σ α ε → Prop where
  /-- A schedule pays no attention to outcomes. -/
  | plain : s.Steers s.policy
  /-- With a gate it is also complete when a test of the outcome comes out wrong. -/
  | gated (test : Except ε α → Bool) (wanted : Bool) : s.Steers (s.gated test wanted)

section Gated

variable {test : Except ε α → Bool} {wanted : Bool} {outcomes : Nat → Except ε α} {n : Nat}

/-- A decision that continues was let through by the gate. -/
theorem stepAt_gated
    (hposition : (s.gated test wanted).position outcomes world n = s.position world n)
    (hcontinues : ((s.gated test wanted).decisionAt outcomes world n).continues = true) :
    (s.gated test wanted).stepAt outcomes world n = s.stepAt world n := by
  rw [Policy.decisionAt, Policy.stepAt, hposition] at hcontinues
  rw [Policy.stepAt, hposition]
  simp only [Schedule.gated] at hcontinues ⊢
  split at hcontinues <;> rename_i htest
  · rw [if_pos htest]
    rfl
  · exact absurd hcontinues Bool.false_ne_true

theorem position_gated
    (h : ∀ i < n, ((s.gated test wanted).decisionAt outcomes world i).continues = true) :
    (s.gated test wanted).position outcomes world n = s.position world n := by
  induction n with
  | zero => rfl
  | succ n ih =>
    have hposition := ih fun i hi => h i (Nat.lt_succ_of_lt hi)
    rw [Policy.position_succ, position_succ, stepAt_gated hposition (h n (Nat.lt_succ_self n)),
      hposition]
    rfl

end Gated

/-- As long as a policy made of a schedule continues, it decides what the schedule decides. -/
theorem Steers.decisionAt_eq {p : Policy σ α ε} (h : s.Steers p) {outcomes : Nat → Except ε α}
    {n : Nat} (hcontinues : ∀ i < n, (p.decisionAt outcomes world i).continues = true) {i : Nat}
    (hi : i < n) : p.decisionAt outcomes world i = s.decisionAt world i := by
  cases h with
  | plain => exact s.policy_decisionAt world outcomes i
  | gated test wanted =>
    have hposition := position_gated fun j (hj : j < i) => hcontinues j (Nat.lt_trans hj hi)
    exact congrArg Step.decision (stepAt_gated hposition (hcontinues i hi))

/-- In a run over a schedule that is complete after `k` decisions, also with a gate, no more than
these continue. -/
theorem CompletesAt.countP_le {r : Run σ α ε τ β} {k : Nat} (h : s.CompletesAt r.world k)
    (hsteers : s.Steers r.policy) (driver : Driver) (n : Nat) :
    (Happening.decisions (r.upTo driver n).trace).countP Decision.continues ≤ k := by
  obtain ⟨j, hmade, hbefore⟩ := r.exists_decisions_upTo driver n
  rw [hmade]
  refine Decision.countP_continues_le fun i hi hcontinues => Nat.lt_of_not_le fun hki => ?_
  have hall : ∀ l < i + 1, (r.decision l).continues = true := by
    intro l hl
    rcases Nat.lt_succ_iff_lt_or_eq.mp hl with hl | rfl
    · exact hbefore l (Nat.lt_of_le_of_lt hl hi)
    · exact hcontinues
  have hcomplete := hsteers.decisionAt_eq hall (Nat.lt_succ_of_le hki)
  have hlast := hall k (Nat.lt_succ_of_le hki)
  rw [show r.decision k = r.policy.decisionAt r.outcome r.world k from rfl, hcomplete, h.2] at hlast
  exact Bool.false_ne_true hlast

end Schedule

end Cadence
