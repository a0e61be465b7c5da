import Mathlib.Data.Nat.Fib.Basic
import Cadence.Proofs.Course
import Cadence.Schedule.Simple

/-!
# Delays that are sums of the two before

The schedule keeps its last delays cut off at the longest duration and adds these. Nothing is lost
by that: a sum of durations that were cut off is cut off where the sum of the uncut numbers is. So
each delay is a multiple of the seed by a Fibonacci number, cut off once. The contexts play no part
in it, not even by the number of decisions they count.

## Main definitions

* `Duration.times` — a multiple of a duration, cut off at the longest one

## Main results

* `Schedule.state_positionIn_fibonacci` — the state holds two neighbouring multiples of the seed
* `Schedule.fibonacci_delays` — the delays, which never decrease and stay at the longest duration
-/

namespace Cadence

variable {σ : Type}

namespace Duration

/-- `n` times a duration, cut off at the longest one. -/
def times (d : Duration) (n : Nat) : Duration := .ofNanos (d.nanos * n)

@[simp] theorem nanos_times (d : Duration) (n : Nat) :
    (d.times n).nanos = min (d.nanos * n) maxNanos := rfl

@[simp] theorem times_zero (d : Duration) : d.times 0 = 0 := rfl

@[simp] theorem times_one (d : Duration) : d.times 1 = d := by
  rw [times, Nat.mul_one, ofNanos_nanos]

/-- The sum of two multiples that were cut off is cut off where the multiple by the sum is. -/
theorem times_add_times (d : Duration) (m n : Nat) : d.times m + d.times n = d.times (m + n) := by
  refine Duration.ext ?_
  rw [nanos_add, nanos_times, nanos_times, nanos_times, Nat.mul_add]
  omega

theorem times_le_times (d : Duration) {m n : Nat} (h : m ≤ n) : d.times m ≤ d.times n := by
  have hmul : d.nanos * m ≤ d.nanos * n := Nat.mul_le_mul_left _ h
  rw [le_def, nanos_times, nanos_times]
  omega

theorem times_eq_longest_iff {d : Duration} {n : Nat} :
    d.times n = longest ↔ maxNanos ≤ d.nanos * n := by
  rw [Duration.ext_iff, nanos_times, nanos_longest, min_eq_right_iff]

/-- Multiples by numbers that grow beyond `maxNanos` reach the longest duration, and stay there. -/
theorem exists_times_eq_longest_iff {d : Duration} (hd : d ≠ 0) {f : Nat → Nat} (hf : Monotone f)
    {bound : Nat} (hbound : maxNanos ≤ f bound) :
    ∃ k ≤ bound, ∀ n, d.times (f n) = longest ↔ k ≤ n := by
  have hpos : 0 < d.nanos := Nat.pos_of_ne_zero fun h => hd (Duration.ext h)
  have hreached : ∃ n, maxNanos ≤ d.nanos * f n :=
    ⟨bound, Nat.le_trans hbound (Nat.le_mul_of_pos_left _ hpos)⟩
  refine ⟨Nat.find hreached, Nat.find_min' hreached ?_, fun n => ?_⟩
  · exact Nat.le_trans hbound (Nat.le_mul_of_pos_left _ hpos)
  · rw [times_eq_longest_iff]
    refine ⟨fun h => Nat.find_min' hreached h, fun h => ?_⟩
    exact Nat.le_trans (Nat.find_spec hreached) (Nat.mul_le_mul_left _ (hf h))

end Duration

namespace Schedule

/-- The state after `n` steps, in whatever contexts they were made. -/
theorem state_positionIn_fibonacci (seed : Duration) (world : σ) (contexts : Nat → Context)
    (n : Nat) :
    ((fibonacci seed).positionIn world contexts n).state =
      (seed.times (Nat.fib n), seed.times (Nat.fib (n + 1))) := by
  induction n with
  | zero => exact Prod.ext seed.times_zero.symm seed.times_one.symm
  | succ n ih =>
    have hstep : ((fibonacci seed).positionIn world contexts (n + 1)).state =
        let state := ((fibonacci seed).positionIn world contexts n).state
        (state.2, state.1 + state.2) := rfl
    rw [hstep, ih, Nat.fib_add_two]
    exact Prod.ext rfl (seed.times_add_times _ _)

theorem decisionIn_fibonacci (seed : Duration) (world : σ) (contexts : Nat → Context) (n : Nat) :
    (fibonacci seed).decisionIn world contexts n = .runAfter (seed.times (Nat.fib (n + 1))) := by
  have hdecision : (fibonacci seed).decisionIn world contexts n =
      .runAfter ((fibonacci seed).positionIn world contexts n).state.2 := rfl
  rw [hdecision, state_positionIn_fibonacci]

theorem monotone_fib_succ : Monotone fun n => Nat.fib (n + 1) :=
  fun _ _ h => Nat.fib_mono (Nat.succ_le_succ h)

/-- **The delays are the multiples of the seed by the Fibonacci numbers**, cut off once, whatever
the contexts are. So they never decrease. Unless the seed is no time at all, they are the longest
one from some decision on, decision 136 at the latest. -/
theorem fibonacci_delays (seed : Duration) (world : σ) (contexts : Nat → Context) :
    let decision := (fibonacci seed).decisionIn world contexts
    (∀ n, decision n = .runAfter (seed.times (Nat.fib (n + 1))) ∧
      (decision n).delay.nanos = min (seed.nanos * Nat.fib (n + 1)) Duration.maxNanos) ∧
    (∀ m n, m ≤ n → (decision m).delay ≤ (decision n).delay) ∧
    (seed ≠ 0 → ∃ k ≤ 136, ∀ n, (decision n).delay = .longest ↔ k ≤ n) := by
  intro decision
  have hdecision : ∀ n, decision n = .runAfter (seed.times (Nat.fib (n + 1))) :=
    decisionIn_fibonacci seed world contexts
  have hdelay : ∀ n, (decision n).delay = seed.times (Nat.fib (n + 1)) := by
    intro n
    rw [hdecision]
    rfl
  refine ⟨fun n => ⟨hdecision n, ?_⟩, fun m n h => ?_, fun hseed => ?_⟩
  · rw [hdelay, Duration.nanos_times]
  · rw [hdelay, hdelay]
    exact seed.times_le_times (monotone_fib_succ h)
  · simp only [hdelay]
    exact Duration.exists_times_eq_longest_iff hseed monotone_fib_succ (by decide)

/-- Delays that begin with one second, in contexts that never count a decision. -/
theorem fibonacci_delays_seconds :
    let decision := (fibonacci (.ofSeconds 1)).decisionIn () fun _ => .initial
    (List.range 7).map decision =
        [1, 1, 2, 3, 5, 8, 13].map (fun n => Decision.runAfter (.ofSeconds n)) ∧
      (decision 92).delay ≤ (decision 93).delay ∧ (decision 4999).delay = .longest := by
  intro decision
  obtain ⟨hdecision, hmono, hlongest⟩ :=
    fibonacci_delays (.ofSeconds 1) () fun _ => Context.initial
  obtain ⟨k, hk, hiff⟩ := hlongest (by decide)
  refine ⟨?_, hmono 92 93 (by decide), (hiff 4999).mpr (Nat.le_trans hk (by decide))⟩
  rw [List.map_congr_left fun n _ => (hdecision n).1]
  decide

end Schedule

end Cadence
