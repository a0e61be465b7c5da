import Cadence.Proofs.Context
import Cadence.Proofs.Schedule.Budget

/-!
# Schedules one after the other

The dry run of two schedules one after the other is the dry run of the first up to its end and then
the dry run of the second, in the world that the first has left. The step in which the first is
complete makes the first decision of the second, so the decision that is complete does not show.

## Scope

What the second schedule sees is what was counted since the switch. Both counts have a largest
value, so this is the context of a fresh run only as long as neither has reached it, by what the two
schedules make of it together.

## Main definitions

* `Step.second` — a step of the second schedule as a step of both
* `Decision.totalNanos` — the exact sum of the delays of decisions
* `Schedule.sinceSwitch`, `Schedule.secondPosition` — what the second schedule sees, and where it
  stands
* `Schedule.Switched` — a dry run that goes from one schedule to the other

## Main results

* `Schedule.position_andThen` — up to the switch, only the first schedule matters
* `Schedule.stepAt_andThen` — from the switch on, only the second schedule matters
* `Schedule.secondPosition_of_room` — it stands where it does in a fresh run
* `Schedule.decisions_andThen` — the dry run of two schedules one after the other
-/

namespace Cadence

variable {σ : Type}

/-- A step of the second of two schedules, as a step of both. -/
def Step.second {τ υ : Type} (made : Step υ σ) (origin : Context) : Step (Schedule.Stage τ υ) σ :=
  ⟨made.decision, .second made.state origin, made.world⟩

/-- The exact sum of the delays of decisions, in nanoseconds. -/
def Decision.totalNanos (ds : List Decision) : Nat :=
  ds.foldl (fun total d => total + d.delay.nanos) 0

namespace Schedule

variable {a b : Schedule σ} {world : σ}

/-- The exact sum of the first delays of a schedule only grows. -/
theorem spent_mono (s : Schedule σ) (world : σ) {m n : Nat} (h : m ≤ n) :
    s.spent world m ≤ s.spent world n := by
  obtain ⟨k, rfl⟩ := Nat.exists_eq_add_of_le h
  induction k with
  | zero => exact Nat.le_refl _
  | succ k ih => exact Nat.le_trans (ih (Nat.le_add_right m k)) (Nat.le_add_right _ _)

theorem totalNanos_map_decisionAt (s : Schedule σ) (world : σ) (n : Nat) :
    Decision.totalNanos ((List.range n).map (s.decisionAt world)) = s.spent world n := by
  induction n with
  | zero => rfl
  | succ n ih =>
    rw [spent_succ, ← ih, List.range_succ, List.map_append, Decision.totalNanos,
      List.foldl_append]
    rfl

/-! ### One step -/

/-- As long as the first schedule continues, only it is stepped. -/
theorem step_andThen_of_continues {state : a.State} {context : Context}
    (h : (a.step state context world).decision.continues = true) :
    (a.andThen b).step (.first state) context world =
      ⟨(a.step state context world).decision, .first (a.step state context world).state,
        (a.step state context world).world⟩ := by
  have hdone : (a.step state context world).decision.isComplete = false := by
    rw [Decision.isComplete_eq_not_continues, h]
    rfl
  simp only [andThen, hdone]
  rfl

/-- When the first schedule is complete, the second is started and makes its first step. -/
theorem step_andThen_of_complete {state : a.State} {context : Context}
    (h : (a.step state context world).decision = .complete) :
    (a.andThen b).step (.first state) context world =
      (b.step b.start (context.since context) (a.step state context world).world).second
        context := by
  simp only [andThen, h]
  rfl

/-- From then on only the second schedule is stepped. -/
theorem step_andThen_second (state : b.State) (origin context : Context) :
    (a.andThen b).step (.second state origin) context world =
      (b.step state (context.since origin) world).second origin := rfl

/-! ### Up to the switch -/

/-- Up to the switch, two schedules one after the other stand where the first stands. -/
theorem position_andThen {n : Nat} (h : ∀ i < n, (a.decisionAt world i).continues = true) :
    (a.andThen b).position world n =
      ⟨.first (a.position world n).state, (a.position world n).context,
        (a.position world n).world⟩ := by
  induction n with
  | zero => rfl
  | succ n ih =>
    have hn := h n (Nat.lt_succ_self n)
    rw [position_succ, stepAt, ih fun i hi => h i (Nat.lt_succ_of_lt hi),
      step_andThen_of_continues hn]
    rfl

theorem decisionAt_andThen_of_continues {n : Nat}
    (h : ∀ i ≤ n, (a.decisionAt world i).continues = true) :
    (a.andThen b).decisionAt world n = a.decisionAt world n := by
  rw [decisionAt, stepAt, position_andThen fun i hi => h i (Nat.le_of_lt hi),
    step_andThen_of_continues (h n (Nat.le_refl n))]
  rfl

theorem spent_andThen {n : Nat} (h : ∀ i < n, (a.decisionAt world i).continues = true) :
    (a.andThen b).spent world n = a.spent world n := by
  induction n with
  | zero => rfl
  | succ n ih =>
    rw [spent_succ, spent_succ, ih fun i hi => h i (Nat.lt_succ_of_lt hi),
      decisionAt_andThen_of_continues fun i hi => h i (Nat.lt_succ_of_le hi)]

/-- If the first schedule never completes, the second does not matter. -/
theorem decisions_andThen_of_continues (h : ∀ n, (a.decisionAt world n).continues = true)
    (n : Nat) :
    (((a.andThen b).dryRun world).decisions n).1 = ((a.dryRun world).decisions n).1 := by
  have hsame : (a.andThen b).decisionAt world = a.decisionAt world :=
    funext fun i => decisionAt_andThen_of_continues fun j _ => h j
  rw [DryRun.decisions_of_continues fun i _ => h i,
    DryRun.decisions_of_continues fun i _ => by rw [hsame]; exact h i, hsame]

/-! ### From the switch on -/

variable {m : Nat}

/-- What the second schedule sees of the run in its step `j`, if the first is complete after `m`
decisions. -/
def sinceSwitch (a b : Schedule σ) (world : σ) (m j : Nat) : Context :=
  ((a.andThen b).position world (m + j)).context.since (a.position world m).context

/-- Where the second schedule stands before its step `j`, if the first is complete after `m`
decisions. -/
def secondPosition (a b : Schedule σ) (world : σ) (m : Nat) : Nat → Position b.State σ
  | 0 => ⟨b.start, .initial, (a.position world (m + 1)).world⟩
  | j + 1 =>
    let pos := secondPosition a b world m j
    let made := b.step pos.state pos.context pos.world
    ⟨made.state, sinceSwitch a b world m (j + 1), made.world⟩

theorem context_secondPosition (h : a.CompletesAt world m) (j : Nat) :
    (a.secondPosition b world m j).context = a.sinceSwitch b world m j := by
  cases j with
  | zero =>
    rw [sinceSwitch, Nat.add_zero, position_andThen h.1, Context.since_self]
    rfl
  | succ j => rfl

/-- **From the switch on**, only the second schedule is stepped. -/
theorem stepAt_andThen (h : a.CompletesAt world m) (j : Nat) :
    (a.andThen b).stepAt world (m + j) =
      (b.step (a.secondPosition b world m j).state (a.sinceSwitch b world m j)
        (a.secondPosition b world m j).world).second (a.position world m).context := by
  induction j with
  | zero =>
    rw [sinceSwitch, Nat.add_zero, stepAt, position_andThen h.1, step_andThen_of_complete h.2]
    rfl
  | succ j ih =>
    have hposition : (a.andThen b).position world (m + (j + 1)) =
        ⟨.second (a.secondPosition b world m (j + 1)).state (a.position world m).context,
          ((a.andThen b).position world (m + (j + 1))).context,
          (a.secondPosition b world m (j + 1)).world⟩ := by
      rw [← Nat.add_assoc, position_succ, ih, ← context_secondPosition h]
      rfl
    rw [stepAt, hposition, step_andThen_second]
    rfl

theorem before_position_andThen (h : a.CompletesAt world m) (j : Nat) :
    (a.position world m).context.Before ((a.andThen b).position world (m + j)).context := by
  induction j with
  | zero =>
    rw [Nat.add_zero, position_andThen h.1]
    exact Context.before_refl _
  | succ j ih =>
    rw [← Nat.add_assoc, position_succ]
    exact ih.next _

/-- With room for one more decision and its delay, what the second schedule sees goes on like the
context of a run. -/
theorem sinceSwitch_succ (h : a.CompletesAt world m) {j : Nat} (hcount : m + (j + 1) ≤ maxCount)
    (hspent : (a.andThen b).spent world (m + (j + 1)) ≤ Duration.maxNanos) :
    a.sinceSwitch b world m (j + 1) =
      (a.sinceSwitch b world m j).next ((a.andThen b).decisionAt world (m + j)) := by
  refine Context.since_next (before_position_andThen h j) ?_ ?_
  · rw [iteration_position]
    exact Nat.lt_of_le_of_lt (Nat.min_le_left _ _) hcount
  · rw [nanos_elapsed_position]
    exact Nat.le_trans (Nat.add_le_add_right (Nat.min_le_left _ _) _) hspent

/-- **As long as the counts have room**, the second schedule stands where it does in a fresh run. -/
theorem secondPosition_of_room (h : a.CompletesAt world m) {j : Nat} (hcount : m + j ≤ maxCount)
    (hspent : (a.andThen b).spent world (m + j) ≤ Duration.maxNanos) :
    a.secondPosition b world m j = b.position (a.position world (m + 1)).world j := by
  induction j with
  | zero => rfl
  | succ j ih =>
    have hposition := ih (Nat.le_of_succ_le hcount)
      (Nat.le_trans ((a.andThen b).spent_mono world (Nat.le_succ (m + j))) hspent)
    have hdecision : (a.andThen b).decisionAt world (m + j) =
        b.decisionAt (a.position world (m + 1)).world j := by
      rw [decisionAt, stepAt_andThen h, ← context_secondPosition h, hposition]
      rfl
    rw [secondPosition, sinceSwitch_succ h hcount hspent, ← context_secondPosition h, hposition,
      hdecision]
    rfl

/-! ### Where the second stands as in a fresh run -/

variable {left : σ}

theorem sinceSwitch_of_position (h : a.CompletesAt world m) {j : Nat}
    (hposition : a.secondPosition b world m j = b.position left j) :
    a.sinceSwitch b world m j = (b.position left j).context := by
  rw [← context_secondPosition h, hposition]

theorem stepAt_andThen_of_position (h : a.CompletesAt world m) {j : Nat}
    (hposition : a.secondPosition b world m j = b.position left j) :
    (a.andThen b).stepAt world (m + j) =
      (b.stepAt left j).second (a.position world m).context := by
  rw [stepAt_andThen h, sinceSwitch_of_position h hposition, hposition]
  rfl

theorem decisionAt_andThen_of_position (h : a.CompletesAt world m) {j : Nat}
    (hposition : a.secondPosition b world m j = b.position left j) :
    (a.andThen b).decisionAt world (m + j) = b.decisionAt left j :=
  congrArg Step.decision (stepAt_andThen_of_position h hposition)

/-- The first decisions are those of the first schedule, and then those of the second. -/
theorem map_decisionAt_andThen (h : a.CompletesAt world m) {l : Nat}
    (hposition : ∀ j < l, a.secondPosition b world m j = b.position left j) :
    (List.range (m + l)).map ((a.andThen b).decisionAt world) =
      (List.range m).map (a.decisionAt world) ++ (List.range l).map (b.decisionAt left) := by
  have hfirst : (List.range m).map ((a.andThen b).decisionAt world) =
      (List.range m).map (a.decisionAt world) := by
    refine List.map_congr_left fun i hi => ?_
    exact decisionAt_andThen_of_continues fun k hk =>
      h.1 k (Nat.lt_of_le_of_lt hk (List.mem_range.mp hi))
  have hsecond : (List.range l).map ((a.andThen b).decisionAt world ∘ (m + ·)) =
      (List.range l).map (b.decisionAt left) := by
    refine List.map_congr_left fun j hj => ?_
    exact decisionAt_andThen_of_position h (hposition j (List.mem_range.mp hj))
  rw [List.range_add, List.map_append, List.map_map, hfirst, hsecond]

/-- Two schedules one after the other are not complete before the switch. -/
theorem le_of_completesAt_andThen (h : a.CompletesAt world m) {k : Nat}
    (hk : (a.andThen b).CompletesAt world k) : m ≤ k := by
  refine Nat.le_of_not_lt fun hlt => ?_
  have hcomplete := hk.2
  rw [decisionAt_andThen_of_continues fun i hi => h.1 i (Nat.lt_of_le_of_lt hi hlt)] at hcomplete
  have hcontinues := h.1 k hlt
  rw [hcomplete] at hcontinues
  exact Bool.false_ne_true hcontinues

/-- Two schedules one after the other are complete where the second is. -/
theorem completesAt_andThen (h : a.CompletesAt world m) {j : Nat}
    (hposition : ∀ i ≤ j, a.secondPosition b world m i = b.position left i) :
    (a.andThen b).CompletesAt world (m + j) ↔ b.CompletesAt left j := by
  have hdecision : ∀ i ≤ j, (a.andThen b).decisionAt world (m + i) = b.decisionAt left i :=
    fun i hi => decisionAt_andThen_of_position h (hposition i hi)
  constructor
  · rintro ⟨hbefore, hlast⟩
    refine ⟨fun i hi => ?_, by rw [← hdecision j (Nat.le_refl j), hlast]⟩
    rw [← hdecision i (Nat.le_of_lt hi)]
    exact hbefore (m + i) (Nat.add_lt_add_left hi m)
  · rintro ⟨hbefore, hlast⟩
    refine ⟨fun i hi => ?_, by rw [hdecision j (Nat.le_refl j), hlast]⟩
    rcases Nat.lt_or_ge i m with him | him
    · rw [decisionAt_andThen_of_continues fun k hk => h.1 k (Nat.lt_of_le_of_lt hk him)]
      exact h.1 i him
    · obtain ⟨k, rfl⟩ := Nat.exists_eq_add_of_le him
      have hk : k < j := Nat.lt_of_add_lt_add_left hi
      rw [hdecision k (Nat.le_of_lt hk)]
      exact hbefore k hk

/-! ### Dry runs -/

/-- A dry run of `m + n` decisions goes from one schedule to the other after `m` of them, and the
first has then left the world `left`. -/
structure Switched (a b : Schedule σ) (world : σ) (m : Nat) (left : σ) (n : Nat) : Prop where
  /-- It makes the decisions of the first schedule, without the one that is complete, and then
  those of the second in the world that the first has left. -/
  decisions : (((a.andThen b).dryRun world).decisions (m + n)).1 =
    ((a.dryRun world).decisions m).1 ++ ((b.dryRun left).decisions n).1
  /-- It leaves the world that the second leaves. -/
  leaves : 0 < n → (((a.andThen b).dryRun world).decisions (m + n)).2.world =
    ((b.dryRun left).decisions n).2.world
  /-- For each of its decisions the second sees the context of a fresh run. -/
  rebased : ∀ j < ((b.dryRun left).decisions n).1.length,
    a.sinceSwitch b world m j = (b.position left j).context
  /-- So it makes the steps of a fresh run. -/
  stepped : ∀ j < ((b.dryRun left).decisions n).1.length,
    (a.andThen b).stepAt world (m + j) =
      (b.stepAt left j).second (a.position world m).context

/-- A dry run that shows `m + l` decisions goes from one schedule to the other, if the second stands
as in a fresh run that shows the last `l` of them. -/
theorem switched_of_position (h : a.CompletesAt world m) {l n : Nat} (hl : 0 < n → 0 < l)
    (hposition : ∀ j < l, a.secondPosition b world m j = b.position left j)
    (hmade : (((a.andThen b).dryRun world).decisions (m + n)).1 =
      (List.range (m + l)).map ((a.andThen b).decisionAt world))
    (hleaves : (((a.andThen b).dryRun world).decisions (m + n)).2.world =
      ((a.andThen b).position world (m + l)).world)
    (hsecond : ((b.dryRun left).decisions n).1 = (List.range l).map (b.decisionAt left))
    (hleft : ((b.dryRun left).decisions n).2.world = (b.position left l).world) :
    Switched a b world m left n where
  decisions := by
    rw [hmade, hsecond, DryRun.decisions_of_continues h.1]
    exact map_decisionAt_andThen h hposition
  leaves hn := by
    obtain ⟨j, rfl⟩ := Nat.exists_eq_succ_of_ne_zero (Nat.ne_of_gt (hl hn))
    rw [hleaves, hleft, Nat.succ_eq_add_one, ← Nat.add_assoc, position_succ,
      stepAt_andThen_of_position h (hposition j (Nat.lt_succ_self j))]
    rfl
  rebased j hj := by
    rw [hsecond, List.length_map, List.length_range] at hj
    exact sinceSwitch_of_position h (hposition j hj)
  stepped j hj := by
    rw [hsecond, List.length_map, List.length_range] at hj
    exact stepAt_andThen_of_position h (hposition j hj)

/-- As long as the counts have room for the decisions that are made, a dry run goes from one
schedule to the other. -/
theorem switched (h : a.CompletesAt world m) {n : Nat}
    (hcount : (((a.andThen b).dryRun world).decisions (m + n)).1.length ≤ maxCount)
    (hspent : Decision.totalNanos (((a.andThen b).dryRun world).decisions (m + n)).1 ≤
      Duration.maxNanos) :
    Switched a b world m (a.position world (m + 1)).world n := by
  have hroom : ∀ l, m + l ≤ maxCount → (a.andThen b).spent world (m + l) ≤ Duration.maxNanos →
      ∀ j < l, a.secondPosition b world m j = b.position (a.position world (m + 1)).world j := by
    intro l hl hs j hj
    have hle : m + j ≤ m + l := Nat.add_le_add_left (Nat.le_of_lt hj) m
    exact secondPosition_of_room h (Nat.le_trans hle hl)
      (Nat.le_trans ((a.andThen b).spent_mono world hle) hs)
  rcases (a.andThen b).continues_or_completesAt world (m + n) with hall | ⟨k, hk, hcompletes⟩
  · -- neither schedule is complete within these decisions
    have hmade := DryRun.decisions_of_continues hall
    rw [hmade, List.length_map, List.length_range] at hcount
    rw [hmade, totalNanos_map_decisionAt] at hspent
    have hposition := hroom n hcount hspent
    have hsecond : ∀ j < n, (b.decisionAt (a.position world (m + 1)).world j).continues = true := by
      intro j hj
      rw [← decisionAt_andThen_of_position h (hposition j hj)]
      exact hall (m + j) (Nat.add_lt_add_left hj m)
    have hrest := DryRun.decisions_of_continues hsecond
    exact switched_of_position h id hposition (congrArg Prod.fst hmade)
      (congrArg (fun made => made.2.world) hmade) (congrArg Prod.fst hrest)
      (congrArg (fun made => made.2.world) hrest)
  · -- the second schedule is complete within these decisions
    have hmade := DryRun.decisions_of_completesAt hcompletes hk
    rw [hmade, List.length_map, List.length_range] at hcount
    rw [hmade, totalNanos_map_decisionAt] at hspent
    obtain ⟨j, rfl⟩ := Nat.exists_eq_add_of_le (le_of_completesAt_andThen h hcompletes)
    have hposition := hroom (j + 1) hcount hspent
    have hsecond := (completesAt_andThen h
      fun i hi => hposition i (Nat.lt_succ_of_le hi)).mp hcompletes
    have hrest := DryRun.decisions_of_completesAt hsecond (Nat.lt_of_add_lt_add_left hk)
    exact switched_of_position h (fun _ => Nat.succ_pos j) hposition (congrArg Prod.fst hmade)
      (congrArg (fun made => made.2.world) hmade) (congrArg Prod.fst hrest)
      (congrArg (fun made => made.2.world) hrest)

/-- **The dry run of two schedules one after the other.** If the first never completes, it makes the
decisions of the first. If the first is complete after `m` decisions, then as long as the number of
decisions can be counted and their delays do not add up to more than the longest duration, it makes
these `m` decisions and then all those of the second, which counts from the switch. -/
theorem decisions_andThen (a b : Schedule σ) (world : σ) :
    (¬ a.Completes world → ∀ n,
      (((a.andThen b).dryRun world).decisions n).1 = ((a.dryRun world).decisions n).1) ∧
    ∀ m, a.CompletesAt world m → ∀ n,
      (((a.andThen b).dryRun world).decisions (m + n)).1.length ≤ maxCount →
      Decision.totalNanos (((a.andThen b).dryRun world).decisions (m + n)).1 ≤ Duration.maxNanos →
      Switched a b world m ((a.dryRun world).decisions (m + 1)).2.world n := by
  refine ⟨fun h => ?_, fun m h n hcount hspent => ?_⟩
  · rw [completes_iff_not_forall, Classical.not_not] at h
    exact decisions_andThen_of_continues h
  · rw [DryRun.decisions_of_completesAt h (Nat.lt_succ_self m)]
    exact switched h hcount hspent

/-- Two schedules that draw on one source, of which the second has a budget: it is counted from the
switch, and the second goes on drawing where the first left off. -/
theorem decisions_andThen_budget :
    let draw : Duration → Duration → Nat → Duration × Nat := fun _ _ n => (.ofMillis n, n + 1)
    let a : Schedule Nat :=
      (fromDurations [.ofMillis 1, .ofMillis 1]).jitter (.between 0 0) draw
    let b : Schedule Nat :=
      ((spaced (.ofMillis 2)).jitter (.between 0 0) draw).maxCumulativeDelay (.ofMillis 10)
    (¬ (forever : Schedule Nat).Completes 0 ∧
      (((forever.andThen b).dryRun 0).decisions 2).1 = [.runAgain, .runAgain]) ∧
    a.CompletesAt 0 2 ∧ Switched a b 0 2 2 3 ∧
      (((a.andThen b).dryRun 0).decisions 5).1 =
        [.runAfter (.ofMillis 1), .runAfter (.ofMillis 2), .runAfter (.ofMillis 4),
          .runAfter (.ofMillis 5), .complete] := by
  intro draw a b
  have hforever : ¬ (forever : Schedule Nat).Completes 0 :=
    Endless.not_completes (always_ofContext fun _ => rfl) 0
  have ha : a.CompletesAt 0 2 := ⟨by decide, by decide⟩
  have hswitched : Switched a b 0 2 2 3 :=
    (decisions_andThen a b 0).2 2 ha 3 (by decide) (by decide)
  refine ⟨⟨hforever, (decisions_andThen forever b 0).1 hforever 2⟩, ha, hswitched, ?_⟩
  rw [hswitched.decisions]
  decide

end Schedule

end Cadence
