import Cadence.Proofs.Time.Boundary

/-!
# Always waiting for the next boundary

A schedule that always waits for the next boundary waits for the first one strictly after the
reading of its clock, also when that reading is on a boundary itself. So its delays are never zero
and never longer than an interval, however long ago the first reading was.

## Scope

An interval is at most as long as 64 bits can count nanoseconds, and readings in a leap second are
left out. The clock may go back, but not before its first reading. The line of time has no end here:
the next boundary may be beyond the last instant.

## Main definitions

* `untilBoundary?` — the time left to the next boundary, by operations that can fail
* `Schedule.WaitsForBoundary` — a decision waits for the next boundary

## Main results

* `untilBoundary?_eq` — none of these operations fails
* `Schedule.decisionAt_windowed` — all decisions, the first one as well, follow one formula
* `Schedule.windowed_waits` — every decision waits for the next boundary
-/

namespace Cadence

/-! ### Operations that can fail -/

/-- The time left to the next boundary, by operations that can fail: there is no remainder of a
division by zero, no difference below zero, and no number of nanoseconds beyond 64 bits. -/
def untilBoundary? (start now : Instant) (interval : Duration) : Option Duration := do
  guard (interval.nanos ≠ 0)
  let passed := (start.elapsed now).nanos % interval.nanos
  guard (passed ≤ interval.nanos)
  let left := interval.nanos - passed
  guard (left ≤ 18446744073709551615)
  some (.ofNanos left)

variable {start now : Instant} {interval : Duration}

/-- **No operation fails**, whatever was read of the clock. -/
theorem untilBoundary?_eq (hpos : 0 < interval) (hword : interval.nanos ≤ 18446744073709551615)
    (start now : Instant) :
    untilBoundary? start now interval = some (untilBoundary start now interval) := by
  have hzero : interval.nanos ≠ 0 := Nat.ne_of_gt hpos
  have hrest : (start.elapsed now).nanos % interval.nanos ≤ interval.nanos :=
    Nat.le_of_lt (Nat.mod_lt _ hpos)
  have hleft : interval.nanos - (start.elapsed now).nanos % interval.nanos ≤
      18446744073709551615 := Nat.le_trans (Nat.sub_le ..) hword
  simp only [untilBoundary?, untilBoundary, guard, if_pos hzero, if_pos hrest, if_pos hleft,
    Nat.min_eq_left hleft]
  rfl

/-! ### Boundaries after the start -/

/-- There is a next boundary, at most an interval away. -/
theorem exists_boundary (hpos : 0 < interval) (hle : start.toNanos ≤ now.toNanos) :
    ∃ boundary, IsLeast (boundariesAfter start now interval) boundary ∧
      boundary ≤ now.toNanos + interval.nanos := by
  obtain ⟨passed, hpassed⟩ := Int.le.dest hle
  refine ⟨_, isLeast_boundary hpos passed hpassed.symm, ?_⟩
  have hsplit := Nat.div_add_mod' passed interval.nanos
  rw [← Int.natCast_mul, Nat.add_one_mul]
  omega

/-- The start is no boundary after an instant that is not before it. -/
theorem boundariesAfter_eq (hle : start.toNanos ≤ now.toNanos) :
    boundariesAfter start now interval =
      {t | now.toNanos < t ∧ ∃ m : Nat, 0 < m ∧ t = start.toNanos + m * interval.nanos} := by
  ext t
  constructor
  · rintro ⟨hafter, m, rfl⟩
    refine ⟨hafter, m, Nat.pos_of_ne_zero ?_, rfl⟩
    rintro rfl
    omega
  · rintro ⟨hafter, m, -, rfl⟩
    exact ⟨hafter, m, rfl⟩

/-- On the start itself a whole interval is left. -/
theorem untilBoundary_self (hleap : ¬ start.IsLeap)
    (hword : interval.nanos ≤ 18446744073709551615) :
    untilBoundary start start interval = interval := by
  have hpassed := Instant.nanos_elapsed hleap hleap (Int.le_refl _) (by simp)
  have hnone : (start.elapsed start).nanos = 0 := by omega
  refine Duration.ext ?_
  have hlongest := interval.nanos_le_maxNanos
  rw [untilBoundary, hnone, Nat.zero_mod, Duration.nanos_ofNanos]
  omega

namespace Schedule

variable {σ : Type} {now : σ → Instant × σ} {world : σ}

/-- **All decisions follow one formula.** -/
theorem decisionAt_windowed (hpos : 0 < interval) (hword : interval.nanos ≤ 18446744073709551615)
    (hleap : ¬ (readingAt now world 0).IsLeap) (n : Nat) :
    (windowed interval now).decisionAt world n =
      .runAfter (untilBoundary (readingAt now world 0) (readingAt now world n) interval) := by
  cases n with
  | zero => rw [decisionAt_windowed_zero hpos, untilBoundary_self hleap hword]
  | succ n => exact decisionAt_windowed_succ hpos n

/-- Decision `n` of a schedule that always waits for the next boundary is to wait for `delay`, and
that is right. -/
structure WaitsForBoundary (interval : Duration) (now : σ → Instant × σ) (world : σ) (n : Nat)
    (delay : Duration) : Prop where
  /-- It is the decision. -/
  decision : (windowed interval now).decisionAt world n = .runAfter delay
  /-- The wait ends with the first boundary strictly after the reading. Boundaries are at positive
  multiples of the interval from the first reading. -/
  ends : IsLeast {t : Int | (readingAt now world n).toNanos < t ∧
      ∃ m : Nat, 0 < m ∧ t = (readingAt now world 0).toNanos + m * interval.nanos}
    ((readingAt now world n).toNanos + delay.nanos)
  /-- There is something to wait for. -/
  pos : 0 < delay
  /-- The wait is at most an interval. -/
  le : delay ≤ interval
  /-- No operation by which it is computed fails. -/
  computed : untilBoundary? (readingAt now world 0) (readingAt now world n) interval = some delay

/-- **Every decision waits for the next boundary**, the first one included, as long as the clock
does not go back before its first reading. -/
theorem windowed_waits (hpos : 0 < interval) (hword : interval.nanos ≤ 18446744073709551615)
    (hleap : ∀ n, ¬ (readingAt now world n).IsLeap)
    (hsince : ∀ n, (readingAt now world 0).toNanos ≤ (readingAt now world n).toNanos) (n : Nat) :
    ∃ delay, WaitsForBoundary interval now world n delay := by
  obtain ⟨boundary, hleast, hnear⟩ := exists_boundary hpos (hsince n)
  have hafter := hleast.1.1
  have hdelay := nanos_untilBoundary hpos (hleap 0) (hleap n) (hsince n) hleast (by omega)
  refine ⟨_, decisionAt_windowed hpos hword (hleap 0) n, ?_, ?_, ?_,
    untilBoundary?_eq hpos hword _ _⟩
  · have hend : (readingAt now world n).toNanos + ((untilBoundary (readingAt now world 0)
        (readingAt now world n) interval).nanos : Int) = boundary := by omega
    rw [hend, ← boundariesAfter_eq (hsince n)]
    exact hleast
  · rw [Duration.lt_def, Duration.nanos_zero]
    omega
  · rw [Duration.le_def]
    omega

/-- With an interval of seven nanoseconds and readings at 0, 7, 20 and 3 nanoseconds, the second
decision is made on a boundary and the fourth one after the clock has gone back. -/
theorem windowed_waits_sevenNanos :
    let nanos : Nat → Nat := fun n => [0, 7, 20].getD n 3
    let now : Nat → Instant × Nat := fun n => (Instant.epoch.after (.ofNanos (nanos n)), n + 1)
    let interval : Duration := .ofNanos 7
    0 < interval ∧ interval.nanos ≤ 18446744073709551615 ∧
      (∀ n, ¬ (readingAt now 0 n).IsLeap) ∧
      (∀ n, (readingAt now 0 0).toNanos ≤ (readingAt now 0 n).toNanos) ∧
      WaitsForBoundary interval now 0 1 (.ofNanos 7) ∧
      WaitsForBoundary interval now 0 2 (.ofNanos 1) ∧
      WaitsForBoundary interval now 0 3 (.ofNanos 4) := by
  intro nanos now interval
  have hpos : 0 < interval := by decide
  have hword : interval.nanos ≤ 18446744073709551615 := by decide
  have hleap : ∀ n, ¬ (readingAt now 0 n).IsLeap := fun n => Instant.not_isLeap_after (by decide) _
  have hsince : ∀ n, (readingAt now 0 0).toNanos ≤ (readingAt now 0 n).toNanos := by
    intro n
    match n with
    | 0 | 1 | 2 => decide
    | n + 3 => exact (by decide : (readingAt now 0 0).toNanos ≤ (readingAt now 0 3).toNanos)
  have hwaits : ∀ n delay,
      untilBoundary? (readingAt now 0 0) (readingAt now 0 n) interval = some delay →
        WaitsForBoundary interval now 0 n delay := by
    intro n delay hdelay
    obtain ⟨_, h⟩ := windowed_waits hpos hword hleap hsince n
    obtain rfl := Option.some.inj (h.computed.symm.trans hdelay)
    exact h
  exact ⟨hpos, hword, hleap, hsince, hwaits 1 _ (by decide), hwaits 2 _ (by decide),
    hwaits 3 _ (by decide)⟩

end Schedule

end Cadence
