import Cadence.Expr.Basic
import Cadence.Proofs.Schedule.Counting

/-!
# When two schedules one after the other complete

Two schedules that complete on their own do so one after the other as long as the counts have room
for what both make of them. The second schedule counts only up to what is left at the switch. If
that is not enough for the number of decisions or for the delays by which it stops, it goes on for
ever.

## Main definitions

* `Schedule.Sourceless` — a schedule neither draws nor reads a clock
* `Schedule.delayLeft` — how much more delay can be added up
* `Schedule.DelaysUpTo` — a schedule always continues, with delays up to a longest one

## Main results

* `Schedule.iteration_sinceSwitch`, `Schedule.elapsed_sinceSwitch_le` — how far the second schedule
  counts
* `Schedule.completesAt_andThen_of_room` — with room, both complete
* `Schedule.completes_andThen_iff_of_continuesBelow` — when one that stops by counting completes
* `Schedule.not_completes_andThen_maxCumulativeDelay` — a budget that is never used up
* `Schedule.completes_andThen` — all this for schedules without sources
* `Schedule.not_completes_after_longest` — two that complete, but not one after the other
-/

namespace Cadence.Schedule

variable {σ : Type} {a b s : Schedule σ} {world : σ} {m : Nat}

/-! ### Schedules without sources -/

/-- A schedule neither draws from a source of randomness nor reads a clock: its steps do not depend
on the world and leave it as it is. -/
def Sourceless (s : Schedule σ) : Prop :=
  ∀ state context, ∃ decision next, ∀ world, s.step state context world = ⟨decision, next, world⟩

theorem sourceless_ofContext (decide : Context → Decision) :
    (ofContext decide : Schedule σ).Sourceless :=
  fun _ context => ⟨decide context, (), fun _ => rfl⟩

theorem Sourceless.maxCumulativeDelay (h : s.Sourceless) (limit : Duration) :
    (s.maxCumulativeDelay limit).Sourceless := by
  intro state context
  obtain ⟨decision, next, hstep⟩ := h state context
  simp only [Schedule.maxCumulativeDelay, hstep]
  by_cases hspent : limit ≤ context.elapsed
  · exact ⟨.complete, state, fun _ => if_pos hspent⟩
  · simp only [if_neg hspent]
    cases decision.delay? with
    | none => exact ⟨decision, next, fun _ => rfl⟩
    | some delay =>
      by_cases hroom : limit < context.elapsed + delay
      · exact ⟨.complete, next, fun _ => if_pos hroom⟩
      · exact ⟨decision, next, fun _ => if_neg hroom⟩

/-- A schedule without sources leaves the world as it is. -/
theorem Sourceless.world_position (h : s.Sourceless) (world : σ) (n : Nat) :
    (s.position world n).world = world := by
  induction n with
  | zero => rfl
  | succ n ih =>
    obtain ⟨decision, next, hstep⟩ := h (s.position world n).state (s.position world n).context
    rw [position_succ, Step.next, stepAt, hstep]
    exact ih

/-! ### With room in the counts -/

/-- The delays of two schedules one after the other add up to those of both, as long as the counts
have room for them. -/
theorem spent_andThen_add (h : a.CompletesAt world m) {k : Nat} (hcount : m + k ≤ maxCount)
    (hspent : a.spent world m + b.spent (a.position world (m + 1)).world k ≤ Duration.maxNanos) :
    (a.andThen b).spent world (m + k) =
      a.spent world m + b.spent (a.position world (m + 1)).world k := by
  induction k with
  | zero => exact spent_andThen h.1
  | succ k ih =>
    have hmono := b.spent_mono (a.position world (m + 1)).world (Nat.le_add_right k 1)
    have hcount' := Nat.le_of_succ_le hcount
    have hsum := ih hcount' (Nat.le_trans (Nat.add_le_add_left hmono _) hspent)
    -- the sum so far leaves room, so the next delay is that of a fresh run
    have hposition := secondPosition_of_room (b := b) h hcount' (by omega)
    rw [← Nat.add_assoc, spent_succ, hsum, decisionAt_andThen_of_position h hposition, spent_succ,
      Nat.add_assoc]

/-- **With room in the counts**, two schedules one after the other are complete where the second one
is. -/
theorem completesAt_andThen_of_room (h : a.CompletesAt world m) {k : Nat}
    (hk : b.CompletesAt (a.position world (m + 1)).world k) (hcount : m + k ≤ maxCount)
    (hspent : a.spent world m + b.spent (a.position world (m + 1)).world k ≤ Duration.maxNanos) :
    (a.andThen b).CompletesAt world (m + k) := by
  refine (completesAt_andThen h fun i hi => ?_).mpr hk
  have hle : m + i ≤ m + k := Nat.add_le_add_left hi m
  refine secondPosition_of_room h (Nat.le_trans hle hcount) ?_
  refine Nat.le_trans ((a.andThen b).spent_mono world hle) ?_
  rw [spent_andThen_add h hcount hspent]
  exact hspent

/-! ### What is left of the counts -/

/-- The second schedule counts decisions up to what is left at the switch. -/
theorem iteration_sinceSwitch (a b : Schedule σ) (world : σ) (m j : Nat) :
    (a.sinceSwitch b world m j).iteration = min j (maxCount - m) := by
  show ((a.andThen b).position world (m + j)).context.iteration -
    (a.position world m).context.iteration = _
  rw [iteration_position, iteration_position]
  omega

/-- The longest duration less the delays of the first `n` decisions of a schedule: how much more can
be added up. -/
def delayLeft (s : Schedule σ) (world : σ) (n : Nat) : Duration :=
  .longest - .ofNanos (s.spent world n)

/-- The second schedule adds up delays at most to what is left at the switch. -/
theorem elapsed_sinceSwitch_le (a b : Schedule σ) (world : σ) (m j : Nat) :
    (a.sinceSwitch b world m j).elapsed ≤ a.delayLeft world m := by
  have hle := ((a.andThen b).position world (m + j)).context.elapsed.nanos_le_maxNanos
  show ((a.andThen b).position world (m + j)).context.elapsed.nanos -
    (a.position world m).context.elapsed.nanos ≤
      Duration.maxNanos - min (a.spent world m) Duration.maxNanos
  rw [nanos_elapsed_position a]
  exact Nat.sub_le_sub_right hle _

/-- What holds of all decisions of the second schedule holds of those from the switch on, in the
contexts that it sees. -/
theorem Always.decisionAt_andThen {Q : Context → Decision → Prop} (hb : b.Always Q)
    (h : a.CompletesAt world m) (j : Nat) :
    Q (a.sinceSwitch b world m j) ((a.andThen b).decisionAt world (m + j)) := by
  obtain ⟨I, hstart, hstep⟩ := hb
  have hstate : ∀ j, I (a.secondPosition b world m j).state := by
    intro j
    induction j with
    | zero => exact hstart
    | succ j ih => exact (hstep _ _ _ ih).2
  rw [Schedule.decisionAt, stepAt_andThen h]
  exact (hstep _ _ _ (hstate j)).1

/-- If the second schedule always continues from the switch on, both never complete. -/
theorem not_completes_andThen (h : a.CompletesAt world m)
    (hb : ∀ j, ((a.andThen b).decisionAt world (m + j)).continues = true) :
    ¬ (a.andThen b).Completes world := by
  rw [completes_iff_not_forall, Classical.not_not]
  intro i
  rcases Nat.lt_or_ge i m with hi | hi
  · rw [decisionAt_andThen_of_continues fun k hk => h.1 k (Nat.lt_of_le_of_lt hk hi)]
    exact h.1 i hi
  · obtain ⟨j, rfl⟩ := Nat.exists_eq_add_of_le hi
    exact hb j

/-! ### A second schedule that stops by counting -/

/-- The decisions from the switch on, if the second schedule has a bound. -/
theorem ContinuesBelow.continues_andThen_iff {n : ℕ∞} (hb : b.ContinuesBelow n)
    (h : a.CompletesAt world m) (j : Nat) :
    ((a.andThen b).decisionAt world (m + j)).continues = true ↔
      ((min j (maxCount - m) : Nat) : ℕ∞) < n := by
  obtain ⟨I, hb⟩ := hb
  have hiteration : ∀ j, (a.secondPosition b world m j).context.iteration =
      min j (maxCount - m) := by
    intro j
    rw [context_secondPosition h, iteration_sinceSwitch]
  rw [decisionAt, stepAt_andThen h, ← context_secondPosition h, ← hiteration]
  refine hb.along (p := a.secondPosition b world m) rfl rfl (fun _ => rfl) (fun j => ?_) j
  rw [hiteration, hiteration]
  omega

/-- **After another schedule, one that stops by counting completes** exactly if as many decisions
are left to count. -/
theorem completes_andThen_iff_of_continuesBelow {n : ℕ∞} (h : a.CompletesAt world m)
    (hb : b.ContinuesBelow n) :
    (a.andThen b).Completes world ↔ n ≤ (maxCount - m : Nat) := by
  constructor
  · intro hcompletes
    refine not_lt.mp fun hlt => not_completes_andThen h (fun j => ?_) hcompletes
    rw [hb.continues_andThen_iff h]
    exact lt_of_le_of_lt (Nat.cast_le.mpr (Nat.min_le_right _ _)) hlt
  · intro hle
    obtain ⟨k, rfl⟩ := ENat.ne_top_iff_exists.mp (ne_top_of_le_ne_top (ENat.natCast_ne_top _) hle)
    have hk : k ≤ maxCount - m := Nat.cast_le.mp hle
    rw [completes_iff_not_forall]
    intro hall
    -- after `k` decisions from the switch on, the second schedule has counted all of them
    have hcontinues := (hb.continues_andThen_iff h k).mp (hall (m + k))
    rw [Nat.min_eq_left hk] at hcontinues
    exact lt_irrefl _ hcontinues

/-! ### A second schedule that stops by adding up delays -/

/-- A schedule always continues, and with no delay longer than `most`. -/
def DelaysUpTo (s : Schedule σ) (most : Duration) : Prop :=
  s.Always fun _ d => d.continues = true ∧ d.delay ≤ most

/-- With a budget, such a schedule continues as long as there is room for the longest delay. -/
theorem DelaysUpTo.maxCumulativeDelay {most : Duration} (h : s.DelaysUpTo most) (limit : Duration) :
    (s.maxCumulativeDelay limit).Always fun c d =>
      c.elapsed < limit → c.elapsed + most ≤ limit → d.continues = true := by
  obtain ⟨I, hstart, hstep⟩ := h
  refine ⟨I, hstart, fun state context world hI => ?_⟩
  obtain ⟨⟨hcontinues, hdelay⟩, hnext⟩ := hstep state context world hI
  have hkept : I ((s.maxCumulativeDelay limit).step state context world).state := by
    simp only [Schedule.maxCumulativeDelay]
    split
    · exact hI
    · split
      · exact hnext
      · split <;> exact hnext
  refine ⟨fun hspent hmost => ?_, hkept⟩
  have hroom : context.elapsed + (s.step state context world).decision.delay ≤ limit := by
    refine Duration.le_trans ?_ hmost
    rw [Duration.le_def] at hdelay ⊢
    rw [Duration.nanos_add, Duration.nanos_add]
    omega
  rw [step_of_room hspent hroom]
  exact hcontinues

/-- **After another schedule, a budget may never be used up**: neither does what is left to add up
reach it, nor would the longest delay beyond that exceed it. -/
theorem not_completes_andThen_maxCumulativeDelay {most limit : Duration}
    (h : a.CompletesAt world m) (hs : s.DelaysUpTo most) (hleft : a.delayLeft world m < limit)
    (hmost : a.delayLeft world m + most ≤ limit) :
    ¬ (a.andThen (s.maxCumulativeDelay limit)).Completes world := by
  refine not_completes_andThen h fun j => ?_
  have hle := a.elapsed_sinceSwitch_le (s.maxCumulativeDelay limit) world m j
  refine (hs.maxCumulativeDelay limit).decisionAt_andThen h j (Nat.lt_of_le_of_lt hle hleft) ?_
  refine Duration.le_trans ?_ hmost
  rw [Duration.le_def] at hle ⊢
  rw [Duration.nanos_add, Duration.nanos_add]
  omega

/-! ### Schedules that complete on their own -/

/-- **When two schedules without sources that complete on their own do so one after the other.**
They do if the counts have room for the decisions and the delays of both. A second schedule that
stops by counting completes exactly if as many decisions are left to count. One that stops by its
budget never completes if what is left to add up is so little that the budget cannot be exceeded. -/
theorem completes_andThen (a b : Schedule σ) (ha : a.Sourceless) (world : σ) {m k : Nat}
    (hm : a.CompletesAt world m) (hk : b.CompletesAt world k) :
    (m + k ≤ maxCount → a.spent world m + b.spent world k ≤ Duration.maxNanos →
      (a.andThen b).CompletesAt world (m + k)) ∧
    (b.ContinuesBelow k → ((a.andThen b).Completes world ↔ k ≤ maxCount - m)) ∧
    ∀ (s : Schedule σ) (most limit : Duration), b = s.maxCumulativeDelay limit →
      s.DelaysUpTo most → a.delayLeft world m < limit → a.delayLeft world m + most ≤ limit →
      ¬ (a.andThen b).Completes world := by
  have hworld : (a.position world (m + 1)).world = world := ha.world_position world _
  refine ⟨fun hcount hspent => ?_, fun hb => ?_, ?_⟩
  · rw [← hworld] at hk
    refine completesAt_andThen_of_room hm hk hcount ?_
    rw [hworld]
    exact hspent
  · rw [completes_andThen_iff_of_continuesBelow hm hb, Nat.cast_le]
  · rintro s most limit rfl hs hleft hmost
    exact not_completes_andThen_maxCumulativeDelay hm hs hleft hmost

/-- A budget after two runs at once and after one with the longest delay, and one run after as many
as can be counted. -/
theorem completes_andThen_full :
    let budget : Schedule Unit := (spaced (.ofSeconds 1)).maxCumulativeDelay (.ofSeconds 5)
    let longest : Schedule Unit := fromDurations [.longest]
    (recurs 2 : Schedule Unit).CompletesAt () 2 ∧ longest.CompletesAt () 1 ∧
      budget.CompletesAt () 5 ∧ ((recurs 2).andThen budget).CompletesAt () 7 ∧
      ¬ (longest.andThen budget).Completes () ∧
      ¬ ((recurs maxCount).andThen (recurs 1) : Schedule Unit).Completes () := by
  intro budget longest
  have hrecurs : (recurs 2 : Schedule Unit).CompletesAt () 2 := ⟨by decide, by decide⟩
  have hlongest : longest.CompletesAt () 1 := ⟨by decide, by decide⟩
  have hbudget : budget.CompletesAt () 5 := ⟨by decide, by decide⟩
  have hspaced : (spaced (.ofSeconds 1) : Schedule Unit).DelaysUpTo (.ofSeconds 1) :=
    always_ofContext fun _ => ⟨rfl, Duration.le_refl _⟩
  have hfull := (continuesBelow_recurs (σ := Unit) maxCount).completesAt (Nat.le_refl _) ()
  have hone := continuesBelow_recurs (σ := Unit) 1
  refine ⟨hrecurs, hlongest, hbudget, ?_, ?_, ?_⟩
  · exact (completes_andThen _ budget (sourceless_ofContext _) () hrecurs hbudget).1 (by decide)
      (by decide)
  · exact (completes_andThen longest budget (sourceless_ofContext _) () hlongest hbudget).2.2
      _ _ _ rfl hspaced (by decide) (by decide)
  · rw [(completes_andThen (recurs maxCount) (recurs 1) (sourceless_ofContext _) () hfull
      (hone.completesAt (by decide) ())).2.1 hone]
    decide

/-- **Two schedules that complete on their own, but not one after the other**: a delay of the
longest duration leaves nothing to add up, so the budget of the second is never used up. -/
theorem not_completes_after_longest :
    let a : Expr := .fromDurations [.longest]
    let b : Expr := .maxCumulativeDelay (.spaced (.ofSeconds 1)) (.ofSeconds 5)
    a.schedule.Sourceless ∧ b.schedule.Sourceless ∧ ∀ world, a.schedule.Completes world ∧
      b.schedule.Completes world ∧ ¬ (Expr.andThen a b).schedule.Completes world := by
  intro a b
  refine ⟨sourceless_ofContext _, (sourceless_ofContext _).maxCumulativeDelay _, fun world => ?_⟩
  have hlongest : a.schedule.CompletesAt world 1 :=
    (continuesBelow_fromDurations [.longest]).completesAt (by decide) world
  have hspaced : (spaced (.ofSeconds 1) : Schedule Sources).DelaysUpTo (.ofSeconds 1) :=
    always_ofContext fun _ => ⟨rfl, Duration.le_refl _⟩
  have hspent : a.schedule.spent world 1 = 0 + Duration.maxNanos := rfl
  have hleft : a.schedule.delayLeft world 1 = 0 := by
    rw [delayLeft, hspent]
    decide
  refine ⟨completes_iff_exists_completesAt.mpr ⟨1, hlongest⟩, ?_, ?_⟩
  · exact completes_maxCumulativeDelay_iff.mpr
      (Or.inr ((delaysFrom_spaced _).exists_le_spent (by decide) world _))
  · refine not_completes_andThen_maxCumulativeDelay hlongest hspaced ?_ ?_
    · rw [hleft]
      decide
    · rw [hleft]
      decide

end Cadence.Schedule
