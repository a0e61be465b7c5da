import Cadence.Proofs.Schedule.SideBySide

/-!
# Schedules that pay no attention to delays

Of the context most schedules use the number of decisions at most. What they decide then does not
depend on the delays that were made before, nor on the last decision: in other contexts that count
the same number they decide the same, and draw the same from their sources. So when something
outside a schedule changes its delays, and nothing else, its later decisions stay as they are. A
budget is the exception, as it adds the delays up.

Two schedules one after the other need some care. The second counts from an origin, and the origin
is a context of the whole with all its delays. It is kept in the state, so the states of two such
runs are not the same. They are related if their origins count the same number.

## Main definitions

* `Step.Alike` — two steps decide the same and go on from related states
* `Schedule.CountsAlike`, `Schedule.ByCount` — a schedule decides by the number of decisions
* `Schedule.Stage.CountAlike` — the states of two schedules one after the other
* `Schedule.DecidesByCount` — it decides the same in contexts that count alike
* `Schedule.LosesFirstDelay` — a schedule without its first delay

## Main results

* `Schedule.ByCount.sideBySide` and the lemmas beside it — one for each way of composing
* `Schedule.ByCount.decidesByCount` — what such a schedule decides in given contexts
* `Schedule.ByCount.losesFirstDelay` — without the first delay, the later decisions are the same
-/

namespace Cadence

variable {σ τ υ : Type}

/-- The first values of a sequence that is another one with its first value changed. -/
theorem map_range_eq_modifyHead {β : Type} {f g : Nat → β} {change : β → β}
    (h : ∀ n, g n = if n = 0 then change (f n) else f n) (n : Nat) :
    (List.range n).map g = ((List.range n).map f).modifyHead change := by
  cases n with
  | zero => rfl
  | succ n =>
    rw [List.range_succ_eq_map, List.map_cons, List.map_cons, List.modifyHead_cons, h 0, if_pos rfl,
      List.map_map, List.map_map]
    refine congrArg (change (f 0) :: ·) (List.map_congr_left fun i _ => ?_)
    exact (h (i + 1)).trans (if_neg (Nat.succ_ne_zero i))

/-- Two steps decide the same and leave the same world, and the states after them are related. -/
structure Step.Alike (R : τ → υ → Prop) (a : Step τ σ) (b : Step υ σ) : Prop where
  /-- They decide the same. -/
  decision : a.decision = b.decision
  /-- They leave the same world. -/
  world : a.world = b.world
  /-- They go on from related states. -/
  state : R a.state b.state

/-- A decision to run again, without its delay. -/
def Decision.atOnce (d : Decision) : Decision := if d.continues then .runAgain else d

theorem Decision.continues_atOnce (d : Decision) : d.atOnce.continues = d.continues := by
  cases d <;> rfl

namespace Schedule

variable {s l r a b : Schedule σ}

/-- From related states, and in contexts that count the same number of decisions, the steps of a
schedule are alike. -/
structure CountsAlike (s : Schedule σ) (R : s.State → s.State → Prop) : Prop where
  /-- The state of a fresh run is related to itself. -/
  start : R s.start s.start
  /-- The steps are alike. -/
  step : ∀ {x y : s.State} {c c' : Context}, R x y → c.CountAlike c' → ∀ world,
    (s.step x c world).Alike R (s.step y c' world)

/-- A schedule decides by the number of decisions made so far, its own state and its sources. -/
def ByCount (s : Schedule σ) : Prop := ∃ R, s.CountsAlike R

/-! ### Single schedules -/

/-- A schedule that makes the same step in contexts with the same number. -/
theorem byCount_of_step (h : ∀ state {c c' : Context}, c.iteration = c'.iteration → ∀ world,
    s.step state c world = s.step state c' world) : s.ByCount := by
  refine ⟨Eq, rfl, ?_⟩
  rintro x _ c c' rfl hc world
  rw [h x hc.iteration world]
  exact ⟨rfl, rfl, rfl⟩

theorem byCount_ofContext {decide : Context → Decision}
    (h : ∀ {c c' : Context}, c.iteration = c'.iteration → decide c = decide c') :
    (ofContext decide : Schedule σ).ByCount :=
  byCount_of_step fun _ _ _ hc _ => Step.ext (h hc) rfl rfl

theorem byCount_smoothDecorrelated (median : Duration) (unit : σ → Float × σ) :
    (smoothDecorrelated median unit).ByCount := by
  refine byCount_of_step fun state c c' hc world => ?_
  simp only [smoothDecorrelated, hc]

/-! ### Wrapped schedules -/

/-- Before the first decision of a run, a step without the first delay asks for no delay. -/
theorem decision_step_noDelayOnFirstRetry (s : Schedule σ) (state : s.State) (context : Context)
    (world : σ) :
    let made := s.step state context world
    (s.noDelayOnFirstRetry.step state context world).decision =
      if context.hasNotStarted then made.decision.atOnce else made.decision := by
  intro made
  have hstep : s.noDelayOnFirstRetry.step state context world =
      if context.hasNotStarted && made.decision.continues then { made with decision := .runAgain }
      else made := rfl
  rw [hstep, Decision.atOnce]
  cases context.hasNotStarted with
  | false => rfl
  | true =>
    cases made.decision.continues with
    | false => rfl
    | true => rfl

/-- Apart from the decision, a step without the first delay is the same step. -/
theorem next_step_noDelayOnFirstRetry (s : Schedule σ) (state : s.State) (context : Context)
    (world : σ) :
    (s.noDelayOnFirstRetry.step state context world).state = (s.step state context world).state ∧
      (s.noDelayOnFirstRetry.step state context world).world =
        (s.step state context world).world := by
  simp only [noDelayOnFirstRetry]
  split
  · exact ⟨rfl, rfl⟩
  · exact ⟨rfl, rfl⟩

namespace ByCount

theorem boxed (h : s.ByCount) : s.boxed.ByCount := by
  obtain ⟨R, hstart, hstep⟩ := h
  refine ⟨Option.Rel R, .some hstart, ?_⟩
  rintro _ _ c c' (hR | _) hc world
  · have halike := hstep hR hc world
    exact ⟨halike.decision, halike.world, .some halike.state⟩
  · exact ⟨rfl, rfl, .none⟩

theorem maxDelay (h : s.ByCount) (limit : Duration) : (s.maxDelay limit).ByCount := by
  obtain ⟨R, hstart, hstep⟩ := h
  refine ⟨R, hstart, fun hR hc world => ?_⟩
  have halike := hstep hR hc world
  exact ⟨congrArg (Decision.cap limit) halike.decision, halike.world, halike.state⟩

/-- Whether the first decision is to be made is a matter of the number. -/
theorem noDelayOnFirstRetry (h : s.ByCount) : s.noDelayOnFirstRetry.ByCount := by
  obtain ⟨R, hstart, hstep⟩ := h
  refine ⟨R, hstart, fun hR hc world => ?_⟩
  have halike := hstep hR hc world
  simp only [Schedule.noDelayOnFirstRetry, hc.hasNotStarted_eq, halike.decision]
  split
  · exact ⟨rfl, halike.world, halike.state⟩
  · exact halike

/-- The range of a random time depends on the delay, which is the same. -/
theorem jitter (h : s.ByCount) (spread : Spread) (draw : Duration → Duration → σ → Duration × σ) :
    (s.jitter spread draw).ByCount := by
  obtain ⟨R, hstart, hstep⟩ := h
  refine ⟨R, hstart, fun hR hc world => ?_⟩
  have halike := hstep hR hc world
  simp only [Schedule.jitter, halike.decision, halike.world]
  split
  · exact halike
  · exact ⟨rfl, rfl, halike.state⟩

/-! ### Two schedules -/

theorem sideBySide (merge : Decision → Decision → Decision) (hl : l.ByCount) (hr : r.ByCount) :
    (l.sideBySide merge r).ByCount := by
  obtain ⟨R, hstart, hstep⟩ := hl
  obtain ⟨R', hstart', hstep'⟩ := hr
  refine ⟨fun x y => R x.1 y.1 ∧ R' x.2 y.2, ⟨hstart, hstart'⟩, fun {x y c c'} hR hc world => ?_⟩
  have hleft := hstep hR.1 hc world
  have hright := hstep' hR.2 hc (l.step x.1 c world).world
  rw [hleft.world] at hright
  simp only [Schedule.sideBySide, hleft.decision, hleft.world]
  exact ⟨congrArg (merge _) hright.decision, hright.world, hleft.state, hright.state⟩

end ByCount

/-- The states of two schedules one after the other in two runs: they are in the same phase, in
related states, and in the second with origins that count the same number. -/
inductive Stage.CountAlike (R : τ → τ → Prop) (R' : υ → υ → Prop) :
    Stage τ υ → Stage τ υ → Prop where
  /-- The first schedule is not complete. -/
  | first {x y : τ} (h : R x y) : CountAlike R R' (.first x) (.first y)
  /-- The second was started at origins that count the same number. -/
  | second {x y : υ} {origin origin' : Context} (h : R' x y)
    (horigin : origin.iteration = origin'.iteration) :
    CountAlike R R' (.second x origin) (.second y origin')

/-- The step of the second schedule, which sees the same number of decisions since its origin. -/
theorem CountsAlike.second {R : τ → τ → Prop} {R' : b.State → b.State → Prop}
    (hb : b.CountsAlike R') {x y : b.State} {c c' origin origin' : Context} (hR : R' x y)
    (hc : c.CountAlike c') (horigin : origin.iteration = origin'.iteration) (world : σ) :
    ((b.step x (c.since origin) world).second origin).Alike (Stage.CountAlike R R')
      ((b.step y (c'.since origin') world).second origin') := by
  have halike := hb.step hR (hc.since horigin) world
  exact ⟨halike.decision, halike.world, .second halike.state horigin⟩

theorem ByCount.andThen (ha : a.ByCount) (hb : b.ByCount) : (a.andThen b).ByCount := by
  obtain ⟨R, hstart, hstep⟩ := ha
  obtain ⟨R', hb⟩ := hb
  refine ⟨Stage.CountAlike R R', .first hstart, ?_⟩
  rintro _ _ c c' (hR | ⟨hR, horigin⟩) hc world
  · rename_i x y
    have halike := hstep hR hc world
    rcases (a.step x c world).decision.continues_or_complete with hcontinues | hcomplete
    · rw [step_andThen_of_continues hcontinues,
        step_andThen_of_continues (halike.decision ▸ hcontinues)]
      exact ⟨halike.decision, halike.world, .first halike.state⟩
    · -- both hand over in this step, at contexts that count the same number
      rw [step_andThen_of_complete hcomplete,
        step_andThen_of_complete (halike.decision ▸ hcomplete), halike.world]
      exact hb.second hb.start hc hc.iteration _
  · exact hb.second hR hc horigin world

/-! ### In given contexts -/

/-- In contexts that count alike, whatever delays and last decisions they show, a schedule decides
the same at every step and leaves its sources the same. -/
structure DecidesByCount (s : Schedule σ) (world : σ) (contexts contexts' : Nat → Context) :
    Prop where
  /-- It decides the same. -/
  decisionIn : ∀ n, s.decisionIn world contexts n = s.decisionIn world contexts' n
  /-- It leaves the same world. -/
  world_positionIn : ∀ n,
    (s.positionIn world contexts n).world = (s.positionIn world contexts' n).world

/-- **In contexts that count alike** a schedule goes the same way: step by step the worlds are the
same and the states are related. -/
theorem ByCount.decidesByCount (h : s.ByCount) (world : σ) {contexts contexts' : Nat → Context}
    (hcount : ∀ n, (contexts n).CountAlike (contexts' n)) :
    s.DecidesByCount world contexts contexts' := by
  obtain ⟨R, hstart, hstep⟩ := h
  have hstepIn : ∀ n,
      R (s.positionIn world contexts n).state (s.positionIn world contexts' n).state →
        (s.positionIn world contexts n).world = (s.positionIn world contexts' n).world →
          (s.stepIn world contexts n).Alike R (s.stepIn world contexts' n) := by
    intro n hR hworld
    rw [stepIn, stepIn, context_positionIn, context_positionIn, hworld]
    exact hstep hR (hcount n) _
  have hall : ∀ n, R (s.positionIn world contexts n).state (s.positionIn world contexts' n).state ∧
      (s.positionIn world contexts n).world = (s.positionIn world contexts' n).world := by
    intro n
    induction n with
    | zero => exact ⟨hstart, rfl⟩
    | succ n ih =>
      have halike := hstepIn n ih.1 ih.2
      exact ⟨halike.state, halike.world⟩
  exact ⟨fun n => (hstepIn n (hall n).1 (hall n).2).decision, fun n => (hall n).2⟩

/-! ### Without the first delay -/

/-- The contexts in the course of a schedule arise. -/
theorem arises_position (s : Schedule σ) (world : σ) (n : Nat) :
    (s.position world n).context.Arises := by
  induction n with
  | zero => exact .initial
  | succ n ih => exact ih.next _

/-- The contexts in the courses of two schedules count alike. -/
theorem countAlike_position (s t : Schedule σ) (world : σ) (n : Nat) :
    (s.position world n).context.CountAlike (t.position world n).context :=
  ⟨s.arises_position world n, t.arises_position world n, by
    rw [iteration_position, iteration_position]⟩

/-- Only before the first decision a run has not started. -/
theorem hasNotStarted_position (s : Schedule σ) (world : σ) (n : Nat) :
    (s.position world n).context.hasNotStarted = true ↔ n = 0 := by
  rw [(s.arises_position world n).hasNotStarted_iff, iteration_position, maxCount]
  omega

/-- Without its first delay a schedule is stepped as it is, in the contexts that come of it. -/
theorem position_noDelayOnFirstRetry (s : Schedule σ) (world : σ) (n : Nat) :
    s.noDelayOnFirstRetry.position world n =
      s.positionIn world (fun i => (s.noDelayOnFirstRetry.position world i).context) n := by
  induction n with
  | zero => rfl
  | succ n ih =>
    have hnext := s.next_step_noDelayOnFirstRetry (s.noDelayOnFirstRetry.position world n).state
      (s.noDelayOnFirstRetry.position world n).context
      (s.noDelayOnFirstRetry.position world n).world
    rw [position_succ, positionIn_succ, stepIn, ← ih]
    exact (Position.mk.injEq ..).mpr ⟨hnext.1, rfl, hnext.2⟩

theorem decisionAt_noDelayOnFirstRetry_eq (s : Schedule σ) (world : σ) (n : Nat) :
    let made :=
      s.decisionIn world (fun i => (s.noDelayOnFirstRetry.position world i).context) n
    s.noDelayOnFirstRetry.decisionAt world n = if n = 0 then made.atOnce else made := by
  have hnew := s.noDelayOnFirstRetry.hasNotStarted_position world n
  have hmade := s.decision_step_noDelayOnFirstRetry (s.noDelayOnFirstRetry.position world n).state
    (s.noDelayOnFirstRetry.position world n).context
    (s.noDelayOnFirstRetry.position world n).world
  simp only [hnew] at hmade
  rw [decisionIn, stepIn, ← position_noDelayOnFirstRetry]
  exact hmade

/-- `t` is the schedule `s` without its first delay: if its first decision continues it is to run
again at once, and every later decision is the same. -/
structure LosesFirstDelay (s t : Schedule σ) (world : σ) : Prop where
  /-- The decisions, also when the schedules are stepped on after they are complete. -/
  decisionAt : ∀ n, t.decisionAt world n =
    if n = 0 then (s.decisionAt world n).atOnce else s.decisionAt world n
  /-- The decisions of dry runs. -/
  decisions : ∀ n, ((t.dryRun world).decisions n).1 =
    ((s.dryRun world).decisions n).1.modifyHead Decision.atOnce
  /-- Dry runs leave the same world. -/
  world : ∀ n, ((t.dryRun world).decisions n).2.world = ((s.dryRun world).decisions n).2.world

/-- **Without the first delay**, what comes later is the same: the contexts are other ones, but they
count alike. -/
theorem ByCount.losesFirstDelay (h : s.ByCount) (world : σ) :
    s.LosesFirstDelay s.noDelayOnFirstRetry world := by
  have halike := h.decidesByCount world fun n => s.noDelayOnFirstRetry.countAlike_position s world n
  have hdecisionAt : ∀ n, s.noDelayOnFirstRetry.decisionAt world n =
      if n = 0 then (s.decisionAt world n).atOnce else s.decisionAt world n := by
    intro n
    rw [decisionAt_noDelayOnFirstRetry_eq, halike.decisionIn, decisionIn_course]
  have hworld : ∀ n,
      (s.noDelayOnFirstRetry.position world n).world = (s.position world n).world := by
    intro n
    rw [position_noDelayOnFirstRetry, halike.world_positionIn, positionIn_course]
  have hcontinues : ∀ n, (s.noDelayOnFirstRetry.decisionAt world n).continues =
      (s.decisionAt world n).continues := by
    intro n
    rw [hdecisionAt]
    split
    · exact Decision.continues_atOnce _
    · rfl
  have hdryRun : ∀ n,
      ((s.noDelayOnFirstRetry.dryRun world).decisions n).1 =
          ((s.dryRun world).decisions n).1.modifyHead Decision.atOnce ∧
        ((s.noDelayOnFirstRetry.dryRun world).decisions n).2.world =
          ((s.dryRun world).decisions n).2.world := by
    intro n
    rcases s.continues_or_completesAt world n with hall | ⟨k, hk, hcompletes⟩
    · rw [DryRun.decisions_of_continues hall,
        DryRun.decisions_of_continues fun i hi => (hcontinues i).trans (hall i hi)]
      exact ⟨map_range_eq_modifyHead hdecisionAt n, hworld n⟩
    · have hcompletes' : s.noDelayOnFirstRetry.CompletesAt world k := by
        refine ⟨fun i hi => (hcontinues i).trans (hcompletes.1 i hi), ?_⟩
        rw [← Decision.continues_eq_false, hcontinues, hcompletes.2]
        rfl
      rw [DryRun.decisions_of_completesAt hcompletes hk,
        DryRun.decisions_of_completesAt hcompletes' hk]
      exact ⟨map_range_eq_modifyHead hdecisionAt (k + 1), hworld (k + 1)⟩
  exact ⟨hdecisionAt, fun n => (hdryRun n).1, fun n => (hdryRun n).2⟩

end Schedule

end Cadence
