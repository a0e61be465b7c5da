import Cadence.Proofs.Schedule.SideBySide

/-!
# A schedule beside a count

Beside a schedule that stops after a given number of decisions, any other one makes its own
decisions up to there and is then complete. The count asks for no delay of its own, so neither way
to have two schedules side by side changes a delay; it draws on nothing, so it does not matter which
of the two is stepped first. All four ways to put them together are therefore the same.

## Scope

The number of decisions is counted up to `maxCount` only, so a larger count would never be reached.
A count is given as a word of 32 bits, and the largest of them is `maxCount`.

## Main definitions

* `Schedule.counted` — a schedule that is complete after so many decisions
* `Schedule.CutAfter` — a dry run that is that of another schedule up to a number of decisions
* `Schedule.BesideCount` — what becomes of a schedule beside a count

## Main results

* `Schedule.mirrors_sideBySide_recurs`, `Schedule.mirrors_recurs_sideBySide` — a schedule beside a
  count does what it does when it is counted
* `Schedule.cutAfter_counted` — the dry run of a counted schedule
* `Schedule.besideCount_recurs` — the four ways to put a schedule beside a count
-/

namespace Cadence.Schedule

variable {σ : Type} {s t : Schedule σ} {world : σ} {count : Nat}

/-- The decisions of `s` while fewer than `count` were made. After that the work is complete, and
`s` is stepped all the same. -/
def counted (s : Schedule σ) (count : Nat) : Schedule σ where
  State := s.State
  start := s.start
  step state context world :=
    let made := s.step state context world
    if context.iteration < count then made else { made with decision := .complete }

theorem step_counted_of_lt {context : Context} (h : context.iteration < count) (state : s.State) :
    (s.counted count).step state context world = s.step state context world :=
  if_pos h

theorem step_counted_of_not_lt {context : Context} (h : ¬ context.iteration < count)
    (state : s.State) : (s.counted count).step state context world =
      { s.step state context world with decision := .complete } :=
  if_neg h

/-! ### Beside a count -/

section Beside

variable {merge : Decision → Decision → Decision}

/-- A count decides from the context alone. -/
theorem step_recurs (context : Context) (world : σ) : (recurs count).step () context world =
    ⟨if context.iteration < count then .runAgain else .complete, (), world⟩ :=
  rfl

theorem mirrors_sideBySide_recurs (laws : Decision.MergeLaws merge) (s : Schedule σ) (count : Nat) :
    Mirrors (s.counted count) (sideBySide merge s (recurs count)) fun state => (state, ()) where
  start := rfl
  step state context world := by
    simp only [sideBySide, counted, step_recurs]
    by_cases hlt : context.iteration < count
    · simp only [if_pos hlt, laws.runAgain_right]
      rfl
    · simp only [if_neg hlt, laws.complete_right]
      rfl

theorem mirrors_recurs_sideBySide (laws : Decision.MergeLaws merge) (s : Schedule σ) (count : Nat) :
    Mirrors (s.counted count) (sideBySide merge (recurs count) s) fun state => ((), state) where
  start := rfl
  step state context world := by
    simp only [sideBySide, counted, step_recurs]
    by_cases hlt : context.iteration < count
    · simp only [if_pos hlt, laws.runAgain_left]
      rfl
    · simp only [if_neg hlt, laws.complete_left]
      rfl

end Beside

/-! ### The course of a counted schedule -/

/-- Up to the count a schedule stands where it does without. -/
theorem position_counted (hcount : count ≤ maxCount) {n : Nat} (hn : n ≤ count) :
    (s.counted count).position world n = s.position world n := by
  induction n with
  | zero => rfl
  | succ n ih =>
    have hlt : (s.position world n).context.iteration < count := by
      rw [iteration_position]
      omega
    rw [position_succ, position_succ, stepAt, ih (Nat.le_of_lt hn), step_counted_of_lt hlt]
    rfl

theorem decisionAt_counted_of_lt (hcount : count ≤ maxCount) {n : Nat} (hn : n < count) :
    (s.counted count).decisionAt world n = s.decisionAt world n := by
  have hlt : (s.position world n).context.iteration < count := by
    rw [iteration_position]
    omega
  rw [decisionAt, stepAt, position_counted hcount (Nat.le_of_lt hn), step_counted_of_lt hlt]
  rfl

theorem decisionAt_counted_self (hcount : count ≤ maxCount) :
    (s.counted count).decisionAt world count = .complete := by
  have hreached : ¬ (s.position world count).context.iteration < count := by
    rw [iteration_position]
    omega
  rw [decisionAt, stepAt, position_counted hcount (Nat.le_refl count),
    step_counted_of_not_lt hreached]

/-- A schedule that is not complete before is so when the count is reached. -/
theorem completesAt_counted (hcount : count ≤ maxCount)
    (h : ∀ i < count, (s.decisionAt world i).continues = true) :
    (s.counted count).CompletesAt world count := by
  refine ⟨fun i hi => ?_, decisionAt_counted_self hcount⟩
  rw [decisionAt_counted_of_lt hcount hi]
  exact h i hi

/-! ### Dry runs -/

/-- The dry run of `t` is that of `s`, cut off after `count` decisions. -/
structure CutAfter (s t : Schedule σ) (count : Nat) (world : σ) : Prop where
  /-- Up to there both make the same decisions. -/
  beginning : ∀ n ≤ count, ((t.dryRun world).decisions n).1 = ((s.dryRun world).decisions n).1
  /-- If `s` is complete with one of its first `count + 1` decisions, the dry runs are the same. -/
  whole : .complete ∈ ((s.dryRun world).decisions (count + 1)).1 →
    ∀ n, ((t.dryRun world).decisions n).1 = ((s.dryRun world).decisions n).1
  /-- If it is not, there are `count` decisions of `s`, and after them `t` is complete. -/
  cut : .complete ∉ ((s.dryRun world).decisions (count + 1)).1 →
    ((s.dryRun world).decisions count).1.length = count ∧
      ∀ n, count < n →
        ((t.dryRun world).decisions n).1 = ((s.dryRun world).decisions count).1 ++ [.complete]

/-- Nothing but the dry run matters. -/
theorem CutAfter.congr {t u : Schedule σ} (h : s.CutAfter t count world)
    (hsame : ∀ n, ((t.dryRun world).decisions n).1 = ((u.dryRun world).decisions n).1) :
    s.CutAfter u count world := by
  refine ⟨?_, ?_, ?_⟩
  · exact fun n hn => (hsame n).symm.trans (h.beginning n hn)
  · exact fun hcomplete n => (hsame n).symm.trans (h.whole hcomplete n)
  · exact fun hnot =>
      ⟨(h.cut hnot).1, fun n hn => (hsame n).symm.trans ((h.cut hnot).2 n hn)⟩

/-- **The dry run of a counted schedule.** -/
theorem cutAfter_counted (s : Schedule σ) (hcount : count ≤ maxCount) (world : σ) :
    s.CutAfter (s.counted count) count world := by
  refine ⟨fun n hn => ?_, fun hcomplete n => ?_, fun hnot => ?_⟩
  · refine DryRun.decisions_eq_of_decisionAt fun i hi => decisionAt_counted_of_lt hcount ?_
    exact Nat.lt_of_lt_of_le hi (Nat.le_trans (DryRun.length_decisions_le s world n) hn)
  · obtain ⟨k, hk, hcompletes⟩ := DryRun.complete_mem_decisions_iff.mp hcomplete
    refine DryRun.decisions_eq_of_decisionAt fun i hi => ?_
    have hik := Nat.lt_of_lt_of_le hi (DryRun.length_decisions_le_of_completesAt hcompletes n)
    rcases Nat.lt_or_eq_of_le (show i ≤ count by omega) with hlt | rfl
    · exact decisionAt_counted_of_lt hcount hlt
    · -- the count is reached with the very decision by which the schedule is complete itself
      obtain rfl : i = k := by omega
      rw [decisionAt_counted_self hcount, hcompletes.2]
  · have hall : ∀ i < count, (s.decisionAt world i).continues = true := by
      rcases s.continues_or_completesAt world (count + 1) with hall | hcompletes
      · exact fun i hi => hall i (Nat.lt_succ_of_lt hi)
      · exact absurd (DryRun.complete_mem_decisions_iff.mpr hcompletes) hnot
    rw [DryRun.decisions_of_continues hall]
    refine ⟨by simp, fun n hn => ?_⟩
    have hcompletes := completesAt_counted hcount hall
    have hsame : (List.range count).map ((s.counted count).decisionAt world) =
        (List.range count).map (s.decisionAt world) :=
      List.map_congr_left fun i hi => decisionAt_counted_of_lt hcount (List.mem_range.mp hi)
    rw [DryRun.decisions_of_completesAt hcompletes hn, List.range_succ, List.map_append, hsame,
      List.map_singleton, hcompletes.2]

/-- `t` is what becomes of `s` beside a count. -/
structure BesideCount (s t : Schedule σ) (count : Nat) : Prop where
  /-- No run can tell `t` from `s` when it is counted. -/
  course : (s.counted count).SameCourse t
  /-- The dry runs of `t` are those of `s`, cut off after `count` decisions. -/
  dryRun : ∀ world, s.CutAfter t count world

theorem SameCourse.besideCount (h : (s.counted count).SameCourse t) (hcount : count ≤ maxCount) :
    s.BesideCount t count :=
  ⟨h, fun world => (cutAfter_counted s hcount world).congr fun n => h.decisions world n⟩

/-- **Beside a count**, in whichever way and on whichever side, a schedule makes as many decisions
as that and is then complete. -/
theorem besideCount_recurs (s : Schedule σ) (n : UInt32) :
    s.BesideCount (s.union (recurs n.toNat)) n.toNat ∧
      s.BesideCount ((recurs n.toNat).union s) n.toNat ∧
      s.BesideCount (s.intersect (recurs n.toNat)) n.toNat ∧
      s.BesideCount ((recurs n.toNat).intersect s) n.toNat := by
  have hcount : n.toNat ≤ maxCount := Nat.le_of_lt_succ n.toNat_lt
  refine ⟨?_, ?_, ?_, ?_⟩
  · exact (mirrors_sideBySide_recurs Decision.mergeLaws_union s _).sameCourse.besideCount hcount
  · exact (mirrors_recurs_sideBySide Decision.mergeLaws_union s _).sameCourse.besideCount hcount
  · exact (mirrors_sideBySide_recurs Decision.mergeLaws_intersect s _).sameCourse.besideCount hcount
  · exact (mirrors_recurs_sideBySide Decision.mergeLaws_intersect s _).sameCourse.besideCount hcount

/-- Two delays of a schedule beside a count, and one that has no more than the count. -/
example :
    let s : Schedule Unit := fibonacci (.ofSeconds 3)
    let list : Schedule Unit := fromDurations [.ofSeconds 3, .ofSeconds 3]
    ((((recurs 2).intersect s).dryRun ()).decisions 9).1 =
        [.runAfter (.ofSeconds 3), .runAfter (.ofSeconds 3), .complete] ∧
      (((list.union (recurs 2)).dryRun ()).decisions 9).1 =
        [.runAfter (.ofSeconds 3), .runAfter (.ofSeconds 3), .complete] :=
  ⟨rfl, rfl⟩

end Cadence.Schedule
