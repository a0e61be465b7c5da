import Cadence.Proofs.Course
import Cadence.Proofs.Time.Occasion

/-!
# Keeping to boundaries

Two schedules count equal intervals from the first reading of their clock. One always waits for the
next boundary. The other does the same unless it is late: if its reading is more than an interval
after the instant for which its last decision had planned the next run, it runs again at once and
plans from that reading, which need not be on a boundary. As it counts its intervals from the first
reading all the same, it is on a boundary again with the first decision that is not late.

## Scope

The clock may go back. Readings in a leap second are left out: they have no number of nanoseconds of
their own. A boundary may be beyond the last instant, and then the plan is cut off there. The wait
for a boundary is cut off at `2 ^ 64` nanoseconds less one, for both schedules alike.

## Main definitions

* `readingAt` — the readings of a clock that is read again and again
* `Schedule.plannedAt` — the instant for which a decision plans the next run
* `boundariesAfter` — the boundaries after an instant
* `Schedule.KeepsToWindows` — how the one schedule goes in comparison with the other

## Main results

* `isLeast_boundary`, `nanos_untilBoundary` — how long it is to the next boundary
* `Schedule.decisionAt_fixed_succ` — the decisions of the schedule that may be late
* `Schedule.reading_le_planned` — as long as the clock does not go back, plans do not either
* `Schedule.keepsToWindows_fixed` — it keeps to the boundaries of the one that always waits
-/

namespace Cadence

variable {σ : Type}

/-! ### Readings -/

/-- The world after a clock was read `n` times. -/
def worldAfter (now : σ → Instant × σ) (world : σ) : Nat → σ
  | 0 => world
  | n + 1 => (now (worldAfter now world n)).2

/-- Reading `n` of a clock, the first being reading zero. -/
def readingAt (now : σ → Instant × σ) (world : σ) (n : Nat) : Instant :=
  (now (worldAfter now world n)).1

theorem reading_le_reading {now : σ → Instant × σ} {world : σ}
    (hforward : ∀ n, (readingAt now world n).toNanos ≤ (readingAt now world (n + 1)).toNanos)
    {i j : Nat} (hij : i ≤ j) :
    (readingAt now world i).toNanos ≤ (readingAt now world j).toNanos := by
  induction j, hij using Nat.le_induction with
  | base => exact Int.le_refl _
  | succ j _ ih => exact Int.le_trans ih (hforward j)

/-! ### Instants in the range of time -/

namespace Instant

variable {t : Instant}

theorem toNanos_last : last.toNanos = 8210266876799999999999 := rfl

theorem toNanos_le_last (h : ¬ t.IsLeap) : t.toNanos ≤ last.toNanos := by
  have hlast := t.le_last
  simp only [IsLeap, Duration.nanosPerSecond] at h
  rw [toNanos_last, toNanos]
  omega

/-- The instant a duration later is cut off at the last one. -/
theorem toNanos_after (h : ¬ t.IsLeap) (d : Duration) :
    (t.after d).toNanos = min (t.toNanos + d.nanos) last.toNanos := by
  have hfirst := t.first_le
  have hnanos : t.toNanos = t.second * 1000000000 + t.nano := rfl
  rw [after, add?_of_not_isLeap h]
  cases hmoved : ofNanos? (t.toNanos + d.nanos) with
  | some u =>
    have hu := (toNanos_of_ofNanos? hmoved).1
    have hle := toNanos_le_last (toNanos_of_ofNanos? hmoved).2
    show u.toNanos = _
    omega
  | none =>
    -- there is no such instant, and it would not be before the first
    have hbeyond : last.toNanos ≤ t.toNanos + d.nanos := by
      rw [toNanos_last]
      by_contra hlt
      rw [ofNanos?, dif_pos (by omega)] at hmoved
      exact absurd hmoved (Option.some_ne_none _)
    show last.toNanos = _
    omega

theorem not_isLeap_after (h : ¬ t.IsLeap) (d : Duration) : ¬ (t.after d).IsLeap := by
  rw [after, add?_of_not_isLeap h]
  cases hmoved : ofNanos? (t.toNanos + d.nanos) with
  | some u => exact (toNanos_of_ofNanos? hmoved).2
  | none => decide

theorem after_zero (h : ¬ t.IsLeap) : t.after 0 = t := by
  have hsame : t.toNanos + ((0 : Duration).nanos : Int) = t.toNanos := Int.add_zero _
  rw [after, add?_of_not_isLeap h, hsame, ofNanos?_toNanos h]
  rfl

/-- An instant is later than another one by more than a duration exactly if it is later than the
instant a duration after that, also if the latter is cut off: no instant is later than the last. -/
theorem after_lt_iff {u : Instant} {d : Duration} (ht : ¬ t.IsLeap) (hu : ¬ u.IsLeap) :
    t.after d < u ↔ t.toNanos + d.nanos < u.toNanos := by
  have hlast := toNanos_le_last hu
  rw [lt_iff_toNanos_lt (not_isLeap_after ht d) hu, toNanos_after ht]
  omega

end Instant

/-! ### Boundaries -/

/-- The boundaries after an instant, in nanoseconds since 1970: those at multiples of the interval
from `start` that are later than `now`. -/
def boundariesAfter (start now : Instant) (interval : Duration) : Set Int :=
  {t | now.toNanos < t ∧ ∃ k : Nat, t = start.toNanos + k * interval.nanos}

/-- **The next boundary** is the end of the interval in which an instant lies. -/
theorem isLeast_boundary {start now : Instant} {interval : Duration} (hpos : 0 < interval)
    (passed : Nat) (h : now.toNanos = start.toNanos + passed) :
    IsLeast (boundariesAfter start now interval)
      (start.toNanos + ((passed / interval.nanos + 1 : Nat) : Int) * interval.nanos) := by
  have hsplit := Nat.div_add_mod' passed interval.nanos
  have hrest : passed % interval.nanos < interval.nanos := Nat.mod_lt passed hpos
  constructor
  · have hend := Nat.add_one_mul (passed / interval.nanos) interval.nanos
    refine ⟨?_, _, rfl⟩
    rw [← Int.natCast_mul]
    omega
  · rintro t ⟨hafter, k, rfl⟩
    rw [← Int.natCast_mul] at hafter
    have hlater : passed / interval.nanos * interval.nanos < k * interval.nanos := by omega
    have hk : passed / interval.nanos + 1 ≤ k := Nat.lt_of_mul_lt_mul_right hlater
    have hle := Nat.mul_le_mul_right interval.nanos hk
    rw [← Int.natCast_mul, ← Int.natCast_mul]
    omega

/-- The time to the next boundary, as long as the wait is not cut off. -/
theorem nanos_untilBoundary {start now : Instant} {interval : Duration} {boundary : Int}
    (hpos : 0 < interval) (hstart : ¬ start.IsLeap) (hnow : ¬ now.IsLeap)
    (hle : start.toNanos ≤ now.toNanos)
    (hleast : IsLeast (boundariesAfter start now interval) boundary)
    (hwait : boundary - now.toNanos ≤ 18446744073709551615) :
    ((untilBoundary start now interval).nanos : Int) = boundary - now.toNanos := by
  have hfirst := start.first_le
  have hlast := Instant.toNanos_le_last hnow
  have hnanos : start.toNanos = start.second * 1000000000 + start.nano := rfl
  rw [Instant.toNanos_last] at hlast
  have hpassed := Instant.nanos_elapsed hstart hnow hle (by rw [Duration.maxNanos]; omega)
  have hend := hleast.unique (isLeast_boundary hpos (start.elapsed now).nanos (by omega))
  have hsplit := Nat.div_add_mod' (start.elapsed now).nanos interval.nanos
  have hrest : (start.elapsed now).nanos % interval.nanos < interval.nanos := Nat.mod_lt _ hpos
  rw [← Int.natCast_mul, Nat.add_one_mul] at hend
  rw [untilBoundary, Duration.nanos_ofNanos, Duration.maxNanos]
  omega

namespace Schedule

/-! ### One step -/

section Step

variable {interval : Duration} {now : σ → Instant × σ} {world : σ} {context : Context}

/-- The first decision is to wait for an interval. -/
theorem step_fixed_none (hpos : 0 < interval) (context : Context) (world : σ) :
    (fixed interval now).step none context world =
      ⟨.runAfter interval, some ⟨(now world).1, (now world).1.after interval⟩, (now world).2⟩ := by
  have hzero : interval.isZero = false := beq_false_of_ne (Nat.ne_of_gt hpos)
  simp only [fixed, hzero, Bool.false_eq_true, if_false]

theorem step_fixed_late (hpos : 0 < interval) {start planned : Instant}
    (hlate : planned.after interval < (now world).1) :
    (fixed interval now).step (some ⟨start, planned⟩) context world =
      ⟨.runAgain, some ⟨start, (now world).1⟩, (now world).2⟩ := by
  have hzero : interval.isZero = false := beq_false_of_ne (Nat.ne_of_gt hpos)
  simp only [fixed, hzero, Bool.false_eq_true, if_false, if_pos hlate]

theorem step_fixed_onTime (hpos : 0 < interval) {start planned : Instant}
    (htime : ¬ planned.after interval < (now world).1) :
    (fixed interval now).step (some ⟨start, planned⟩) context world =
      let delay := untilBoundary start (now world).1 interval
      ⟨.runAfter delay, some ⟨start, (now world).1.after delay⟩, (now world).2⟩ := by
  have hzero : interval.isZero = false := beq_false_of_ne (Nat.ne_of_gt hpos)
  simp only [fixed, hzero, Bool.false_eq_true, if_false, if_neg htime]

theorem step_windowed_none (hpos : 0 < interval) (context : Context) (world : σ) :
    (windowed interval now).step none context world =
      ⟨.runAfter interval, some (now world).1, (now world).2⟩ := by
  have hzero : interval.isZero = false := beq_false_of_ne (Nat.ne_of_gt hpos)
  simp only [windowed, hzero, Bool.false_eq_true, if_false]

theorem step_windowed_some (hpos : 0 < interval) (start : Instant) (context : Context) (world : σ) :
    (windowed interval now).step (some start) context world =
      ⟨.runAfter (untilBoundary start (now world).1 interval), some start, (now world).2⟩ := by
  have hzero : interval.isZero = false := beq_false_of_ne (Nat.ne_of_gt hpos)
  simp only [windowed, hzero, Bool.false_eq_true, if_false]

end Step

/-! ### Decision by decision -/

/-- The instant for which decision `n` of a schedule plans the next run: its reading and its delay,
cut off at the last instant. -/
def plannedAt (s : Schedule σ) (now : σ → Instant × σ) (world : σ) (n : Nat) : Instant :=
  (readingAt now world n).after (s.decisionAt world n).delay

/-- No decision plans the next run for an instant before its reading. -/
theorem reading_le_planned {now : σ → Instant × σ} {world : σ} {n : Nat}
    (hleap : ¬ (readingAt now world n).IsLeap) (s : Schedule σ) :
    (readingAt now world n).toNanos ≤ (s.plannedAt now world n).toNanos := by
  have hlast := Instant.toNanos_le_last hleap
  rw [plannedAt, Instant.toNanos_after hleap]
  omega

section Course

variable {interval : Duration} {now : σ → Instant × σ} {world : σ} (hpos : 0 < interval)
include hpos

theorem decisionAt_windowed_zero :
    (windowed interval now).decisionAt world 0 = .runAfter interval :=
  congrArg Step.decision (step_windowed_none hpos .initial world)

/-- After its first decision, the schedule that always waits has kept the first reading. -/
theorem position_windowed_succ (n : Nat) :
    ((windowed interval now).position world (n + 1)).state = some (readingAt now world 0) ∧
      ((windowed interval now).position world (n + 1)).world = worldAfter now world (n + 1) := by
  induction n with
  | zero =>
    rw [position_succ, stepAt]
    exact ⟨congrArg Step.state (step_windowed_none hpos .initial world),
      congrArg Step.world (step_windowed_none hpos .initial world)⟩
  | succ n ih =>
    rw [position_succ, stepAt, ih.1, ih.2, step_windowed_some hpos]
    exact ⟨rfl, rfl⟩

theorem decisionAt_windowed_succ (n : Nat) :
    (windowed interval now).decisionAt world (n + 1) =
      .runAfter (untilBoundary (readingAt now world 0) (readingAt now world (n + 1)) interval) := by
  rw [decisionAt, stepAt, (position_windowed_succ hpos n).1, (position_windowed_succ hpos n).2,
    step_windowed_some hpos]
  rfl

theorem windowed_ne_runAgain (n : Nat) :
    (windowed interval now).decisionAt world n ≠ .runAgain := by
  cases n with
  | zero => rw [decisionAt_windowed_zero hpos]; exact nofun
  | succ n => rw [decisionAt_windowed_succ hpos]; exact nofun

theorem decisionAt_fixed_zero : (fixed interval now).decisionAt world 0 = .runAfter interval :=
  congrArg Step.decision (step_fixed_none hpos .initial world)

variable (hleap : ∀ n, ¬ (readingAt now world n).IsLeap)
include hleap

/-- After any decision, the schedule that may be late has kept the first reading and the instant for
which that decision planned the next run. -/
theorem position_fixed_succ (n : Nat) :
    ((fixed interval now).position world (n + 1)).state =
        some ⟨readingAt now world 0, (fixed interval now).plannedAt now world n⟩ ∧
      ((fixed interval now).position world (n + 1)).world = worldAfter now world (n + 1) := by
  induction n with
  | zero =>
    rw [position_succ, plannedAt, decisionAt_fixed_zero hpos, stepAt]
    exact ⟨congrArg Step.state (step_fixed_none hpos .initial world),
      congrArg Step.world (step_fixed_none hpos .initial world)⟩
  | succ n ih =>
    obtain ⟨hstate, hworld⟩ := ih
    rw [position_succ, plannedAt, decisionAt, stepAt, hstate, hworld]
    by_cases hlate : ((fixed interval now).plannedAt now world n).after interval <
        readingAt now world (n + 1)
    · -- running again at once adds no delay, so the plan is the reading itself
      rw [step_fixed_late hpos hlate]
      refine ⟨?_, rfl⟩
      show some _ = some (Anchor.mk _ ((readingAt now world (n + 1)).after 0))
      rw [Instant.after_zero (hleap (n + 1))]
      rfl
    · rw [step_fixed_onTime hpos hlate]
      exact ⟨rfl, rfl⟩

/-- **A schedule that may be late** runs again at once if its reading is more than an interval after
the plan before, and otherwise decides what the one that always waits decides. -/
theorem decisionAt_fixed_succ (n : Nat) :
    (fixed interval now).decisionAt world (n + 1) =
      if ((fixed interval now).plannedAt now world n).toNanos + interval.nanos <
          (readingAt now world (n + 1)).toNanos then .runAgain
      else (windowed interval now).decisionAt world (n + 1) := by
  obtain ⟨hstate, hworld⟩ := position_fixed_succ hpos hleap n
  have hplanned : ¬ ((fixed interval now).plannedAt now world n).IsLeap :=
    Instant.not_isLeap_after (hleap n) _
  have hlate := Instant.after_lt_iff (d := interval) hplanned (hleap (n + 1))
  rw [decisionAt, stepAt, hstate, hworld, decisionAt_windowed_succ hpos]
  split <;> rename_i h
  · rw [step_fixed_late hpos (hlate.mpr h)]
  · rw [step_fixed_onTime hpos (mt hlate.mp h)]
    rfl

/-! ### A clock that does not go back -/

/-- As long as the clock does not go back, a schedule that runs again at once has let more than an
interval pass since any decision before. -/
theorem reading_add_lt_of_runAgain
    (hforward : ∀ n, (readingAt now world n).toNanos ≤ (readingAt now world (n + 1)).toNanos)
    {i j : Nat} (hij : i < j) (hagain : (fixed interval now).decisionAt world j = .runAgain) :
    (readingAt now world i).toNanos + interval.nanos < (readingAt now world j).toNanos := by
  obtain ⟨j, rfl⟩ := Nat.exists_eq_add_one_of_ne_zero (Nat.ne_zero_of_lt hij)
  have hread := reading_le_reading hforward (Nat.le_of_lt_succ hij)
  have hplan := reading_le_planned (hleap j) (fixed interval now)
  rw [decisionAt_fixed_succ hpos hleap] at hagain
  split at hagain <;> rename_i hlate
  · omega
  · exact absurd hagain (windowed_ne_runAgain hpos (j + 1))

/-- As long as the clock does not go back, the schedule that always waits plans for the next
boundary. -/
theorem toNanos_plannedAt_windowed
    (hforward : ∀ n, (readingAt now world n).toNanos ≤ (readingAt now world (n + 1)).toNanos)
    {n : Nat} {boundary : Int}
    (hleast : IsLeast (boundariesAfter (readingAt now world 0) (readingAt now world n) interval)
      boundary)
    (hwait : boundary - (readingAt now world n).toNanos ≤ 18446744073709551615) :
    ((windowed interval now).plannedAt now world n).toNanos =
      min boundary Instant.last.toNanos := by
  rw [plannedAt, Instant.toNanos_after (hleap n)]
  cases n with
  | zero =>
    have hend := hleast.unique (isLeast_boundary hpos 0 (Int.add_zero _).symm)
    rw [Nat.zero_div, Nat.zero_add, Int.natCast_one, Int.one_mul] at hend
    rw [decisionAt_windowed_zero hpos, hend]
    rfl
  | succ n =>
    have hdelay := nanos_untilBoundary hpos (hleap 0) (hleap (n + 1))
      (reading_le_reading hforward (Nat.zero_le _)) hleast hwait
    rw [decisionAt_windowed_succ hpos]
    show min (_ + ((untilBoundary _ _ _).nanos : Int)) _ = _
    rw [hdelay]
    omega

end Course

/-! ### Side by side -/

/-- How a schedule that may be late goes in comparison with one that always waits for the next
boundary, on the same readings. -/
structure KeepsToWindows (interval : Duration) (now : σ → Instant × σ) (world : σ) : Prop where
  /-- The first decision is the same. -/
  first : (fixed interval now).decisionAt world 0 = (windowed interval now).decisionAt world 0
  /-- Any other is to run again at once exactly if its reading is more than an interval after the
  instant for which the decision before it planned the next run. -/
  late : ∀ n, (fixed interval now).decisionAt world (n + 1) = .runAgain ↔
    ((fixed interval now).plannedAt now world n).toNanos + interval.nanos <
      (readingAt now world (n + 1)).toNanos
  /-- Otherwise it is what the schedule decides that always waits, and the plan is the same. -/
  onTime : ∀ n, (fixed interval now).decisionAt world n ≠ .runAgain →
    (fixed interval now).decisionAt world n = (windowed interval now).decisionAt world n ∧
      (fixed interval now).plannedAt now world n = (windowed interval now).plannedAt now world n
  /-- The schedule that always waits never runs again at once. -/
  waits : ∀ n, ∃ delay, (windowed interval now).decisionAt world n = .runAfter delay
  /-- As long as the clock does not go back, any two decisions to run again at once are more than an
  interval apart. -/
  apart : (∀ n, (readingAt now world n).toNanos ≤ (readingAt now world (n + 1)).toNanos) →
    ∀ i j, i < j → (fixed interval now).decisionAt world i = .runAgain →
      (fixed interval now).decisionAt world j = .runAgain →
        (readingAt now world i).toNanos + interval.nanos < (readingAt now world j).toNanos
  /-- As long as the clock does not go back, any other decision plans for the next boundary, cut off
  at the last instant, unless the wait for it is cut off. -/
  realigned : (∀ n, (readingAt now world n).toNanos ≤ (readingAt now world (n + 1)).toNanos) →
    ∀ n, (fixed interval now).decisionAt world n ≠ .runAgain → ∃ boundary,
      IsLeast (boundariesAfter (readingAt now world 0) (readingAt now world n) interval) boundary ∧
        (boundary - (readingAt now world n).toNanos ≤ 18446744073709551615 →
          ((fixed interval now).plannedAt now world n).toNanos =
            min boundary Instant.last.toNanos)

/-- **A schedule that may be late keeps to the boundaries of the one that always waits**, on every
sequence of readings off leap seconds: it departs from them only to run again at once when it is
late by more than an interval, and is back with the first decision that is not. -/
theorem keepsToWindows_fixed {interval : Duration} (hpos : 0 < interval)
    {now : σ → Instant × σ} {world : σ} (hleap : ∀ n, ¬ (readingAt now world n).IsLeap) :
    KeepsToWindows interval now world := by
  have hfirst :
      (fixed interval now).decisionAt world 0 = (windowed interval now).decisionAt world 0 :=
    (decisionAt_fixed_zero hpos).trans (decisionAt_windowed_zero hpos).symm
  have honTime : ∀ n, (fixed interval now).decisionAt world n ≠ .runAgain →
      (fixed interval now).decisionAt world n = (windowed interval now).decisionAt world n := by
    intro n hn
    cases n with
    | zero => exact hfirst
    | succ n =>
      rw [decisionAt_fixed_succ hpos hleap] at hn ⊢
      split at hn <;> rename_i hlate
      · exact absurd rfl hn
      · rw [if_neg hlate]
  have hplanned : ∀ n, (fixed interval now).decisionAt world n ≠ .runAgain →
      (fixed interval now).plannedAt now world n =
        (windowed interval now).plannedAt now world n := by
    intro n hn
    rw [plannedAt, plannedAt, honTime n hn]
  refine ⟨hfirst, ?_, fun n hn => ⟨honTime n hn, hplanned n hn⟩, ?_, ?_, ?_⟩
  · intro n
    rw [decisionAt_fixed_succ hpos hleap]
    split <;> rename_i hlate
    · exact iff_of_true rfl hlate
    · exact iff_of_false (windowed_ne_runAgain hpos (n + 1)) hlate
  · intro n
    cases n with
    | zero => exact ⟨interval, decisionAt_windowed_zero hpos⟩
    | succ n => exact ⟨_, decisionAt_windowed_succ hpos n⟩
  · intro hforward i j hij _ hagain
    exact reading_add_lt_of_runAgain hpos hleap hforward hij hagain
  · intro hforward n hn
    have hsince := reading_le_reading hforward (Nat.zero_le n)
    refine ⟨_, isLeast_boundary hpos ((readingAt now world n).toNanos -
      (readingAt now world 0).toNanos).toNat (by omega), ?_⟩
    intro hwait
    rw [hplanned n hn]
    exact toNanos_plannedAt_windowed hpos hleap hforward (isLeast_boundary hpos _ (by omega)) hwait

/-- With an interval of ten seconds and readings at 0, 35, 36 and 100 seconds, the second decision
and the fourth are late, and the third plans for the boundary at 40 seconds. -/
theorem keepsToWindows_fixed_overrun :
    let seconds : Nat → Nat := fun n => [0, 35, 36].getD n 100
    let now : Nat → Instant × Nat := fun n => (Instant.epoch.after (.ofSeconds (seconds n)), n + 1)
    let interval : Duration := .ofSeconds 10
    0 < interval ∧ (∀ n, ¬ (readingAt now 0 n).IsLeap) ∧
      (fixed interval now).decisionAt 0 1 = .runAgain ∧
      (fixed interval now).decisionAt 0 2 = (windowed interval now).decisionAt 0 2 ∧
      ((fixed interval now).plannedAt now 0 2).toNanos = 40000000000 ∧
      (fixed interval now).decisionAt 0 3 = .runAgain ∧
      (readingAt now 0 1).toNanos + interval.nanos < (readingAt now 0 3).toNanos := by
  intro seconds now interval
  have hpos : 0 < interval := by decide
  have hleap : ∀ n, ¬ (readingAt now 0 n).IsLeap := fun n => Instant.not_isLeap_after (by decide) _
  have hkeeps := keepsToWindows_fixed hpos hleap
  have hsecond : (fixed interval now).decisionAt 0 1 = .runAgain := (hkeeps.late 0).mpr (by decide)
  have hthird : (fixed interval now).decisionAt 0 2 ≠ .runAgain := by
    rw [ne_eq, hkeeps.late 1]
    decide
  have hfourth : (fixed interval now).decisionAt 0 3 = .runAgain := (hkeeps.late 2).mpr (by decide)
  have hforward : ∀ n, (readingAt now 0 n).toNanos ≤ (readingAt now 0 (n + 1)).toNanos := by
    intro n
    match n with
    | 0 | 1 | 2 => decide
    | n + 3 => exact Int.le_refl _
  exact ⟨hpos, hleap, hsecond, (hkeeps.onTime 2 hthird).1, by decide, hfourth,
    hkeeps.apart hforward 1 3 (by decide) hsecond hfourth⟩

end Schedule

end Cadence
