import Mathlib.Data.ENat.Lattice
import Cadence.Proofs.Schedule.Sequence
import Cadence.Schedule.Anchored

/-!
# Schedules that stop by counting

Many schedules look at the number of decisions made so far and continue as long as it is below a
bound of theirs, which may be infinite. The bounds of combined schedules follow from those of their
parts: the least side by side, the sum one after the other.

## Scope

What is said of a schedule is said of every context in which it may be stepped, so it holds as well
of a part that is stepped in the context of a whole, and whatever delays the whole makes. As a
schedule sees the number of decisions only as far as it is counted, the invariant of its states has
to bear that the number stays the same from one step to the next.

## Main definitions

* `Schedule.Bounded`, `Schedule.ContinuesBelow` — a schedule continues as long as fewer decisions
  were counted
* `Schedule.Stage.Satisfies` — the invariant of two schedules one after the other

## Main results

* `Schedule.ContinuesBelow.sideBySide`, `Schedule.ContinuesBelow.andThen` — the bounds of combined
  schedules
* `Schedule.ContinuesBelow.completesAt`, `Schedule.ContinuesBelow.not_completes` — what becomes of
  dry runs
-/

namespace Cadence

/-- What is left of a sum of bounds when the first of them is used up. -/
theorem lt_add_iff_sub_lt {i j : Nat} {n : ℕ∞} (h : j ≤ i) :
    (i : ℕ∞) < j + n ↔ ((i - j : Nat) : ℕ∞) < n := by
  cases n with
  | top => exact iff_of_true (ENat.natCast_lt_top _) (ENat.natCast_lt_top _)
  | coe n =>
    norm_cast
    omega

namespace Schedule

variable {σ : Type} {s t l r a b : Schedule σ} {m n : ℕ∞} {world : σ}

/-- A schedule continues as long as fewer than `n` decisions were counted, and is complete from then
on, in all states with an invariant that goes by this number. -/
structure Bounded (s : Schedule σ) (n : ℕ∞) (I : Nat → s.State → Prop) : Prop where
  /-- The state of a fresh run has the invariant. -/
  start : I 0 s.start
  /-- The decision goes by the number of decisions counted. -/
  continues : ∀ state context world, I context.iteration state →
    ((s.step state context world).decision.continues = true ↔ (context.iteration : ℕ∞) < n)
  /-- A step keeps the invariant, whether it was counted or not. -/
  step : ∀ state context world, I context.iteration state →
    ∀ i, context.iteration ≤ i → i ≤ context.iteration + 1 → I i (s.step state context world).state

/-- A schedule continues as long as fewer than `n` decisions were counted. -/
def ContinuesBelow (s : Schedule σ) (n : ℕ∞) : Prop := ∃ I, s.Bounded n I

/-- Wherever a schedule with a bound stands on its way, it decides by the number of decisions
counted, as long as no step makes this more than one greater. -/
theorem Bounded.along {I : Nat → s.State → Prop} (h : s.Bounded n I) {p : Nat → Position s.State σ}
    (hstart : (p 0).state = s.start) (hzero : (p 0).context.iteration = 0)
    (hstep : ∀ i, (p (i + 1)).state = (s.step (p i).state (p i).context (p i).world).state)
    (hcount : ∀ i, (p i).context.iteration ≤ (p (i + 1)).context.iteration ∧
      (p (i + 1)).context.iteration ≤ (p i).context.iteration + 1) (i : Nat) :
    (s.step (p i).state (p i).context (p i).world).decision.continues = true ↔
      ((p i).context.iteration : ℕ∞) < n := by
  have hstate : ∀ i, I (p i).context.iteration (p i).state := by
    intro i
    induction i with
    | zero =>
      rw [hstart, hzero]
      exact h.start
    | succ i ih =>
      rw [hstep]
      exact h.step _ _ _ ih _ (hcount i).1 (hcount i).2
  exact h.continues _ _ _ (hstate i)

/-! ### Single schedules -/

theorem continuesBelow_ofContext {decide : Context → Decision}
    (h : ∀ c, (decide c).continues = true ↔ (c.iteration : ℕ∞) < n) :
    (ofContext decide : Schedule σ).ContinuesBelow n :=
  ⟨fun _ _ => True, trivial, fun _ context _ _ => h context, fun _ _ _ _ _ _ _ => trivial⟩

theorem continuesBelow_once : (once : Schedule σ).ContinuesBelow 0 :=
  continuesBelow_ofContext fun _ => by simp

theorem continuesBelow_recurs (times : Nat) : (recurs times : Schedule σ).ContinuesBelow times := by
  refine continuesBelow_ofContext fun c => ?_
  rw [Nat.cast_lt]
  by_cases h : c.iteration < times
  · simp [h]
  · simp [h]

theorem continuesBelow_fromDurations (delays : List Duration) :
    (fromDurations delays : Schedule σ).ContinuesBelow delays.length := by
  refine continuesBelow_ofContext fun c => ?_
  rw [Nat.cast_lt]
  by_cases h : c.iteration < delays.length
  · simp [h]
  · simp [h]

/-- A schedule that never completes has no bound. -/
theorem Endless.continuesBelow (h : s.Endless) : s.ContinuesBelow ⊤ := by
  obtain ⟨I, hstart, hstep⟩ := h
  exact ⟨fun _ => I, hstart,
    fun state context world hI =>
      iff_of_true (hstep state context world hI).1 (ENat.natCast_lt_top _),
    fun state context world hI _ _ _ => (hstep state context world hI).2⟩

/-! ### Schedules that never complete -/

theorem endless_of_step
    (h : ∀ state context world, (s.step state context world).decision.continues = true) :
    s.Endless :=
  ⟨fun _ => True, trivial, fun state context world _ => ⟨h state context world, trivial⟩⟩

theorem endless_smoothDecorrelated (median : Duration) (unit : σ → Float × σ) :
    (smoothDecorrelated median unit).Endless := by
  refine endless_of_step fun state context world => ?_
  simp only [smoothDecorrelated]
  split <;> rfl

theorem endless_windowed (interval : Duration) (now : σ → Instant × σ) :
    (windowed interval now).Endless := by
  refine endless_of_step fun state context world => ?_
  simp only [windowed]
  split
  · rfl
  · cases state <;> rfl

theorem endless_fixed (interval : Duration) (now : σ → Instant × σ) :
    (fixed interval now).Endless := by
  refine endless_of_step fun state context world => ?_
  simp only [fixed]
  split
  · rfl
  · cases state with
    | none => rfl
    | some anchor => dsimp only; split <;> rfl

/-! ### Wrapped schedules -/

namespace ContinuesBelow

/-- A schedule that carries the state of another one in its own, and continues whenever that one
does, has the same bound. -/
theorem of_carried (h : s.ContinuesBelow n) (carry : s.State → t.State)
    (hstart : t.start = carry s.start)
    (hstep : ∀ state context world,
      (t.step (carry state) context world).decision.continues =
          (s.step state context world).decision.continues ∧
        (t.step (carry state) context world).state = carry (s.step state context world).state) :
    t.ContinuesBelow n := by
  obtain ⟨I, h⟩ := h
  refine ⟨fun i state => ∃ carried, state = carry carried ∧ I i carried,
    ⟨_, hstart, h.start⟩, ?_, ?_⟩
  · rintro _ context world ⟨carried, rfl, hcarried⟩
    rw [(hstep carried context world).1]
    exact h.continues carried context world hcarried
  · rintro _ context world ⟨carried, rfl, hcarried⟩ i hle hlt
    exact ⟨_, (hstep carried context world).2, h.step carried context world hcarried i hle hlt⟩

theorem boxed (h : s.ContinuesBelow n) : s.boxed.ContinuesBelow n :=
  h.of_carried some rfl fun _ _ _ => ⟨rfl, rfl⟩

theorem maxDelay (h : s.ContinuesBelow n) (limit : Duration) :
    (s.maxDelay limit).ContinuesBelow n :=
  h.of_carried id rfl fun _ _ _ => ⟨Decision.continues_cap limit _, rfl⟩

theorem jitter (h : s.ContinuesBelow n) (spread : Spread)
    (draw : Duration → Duration → σ → Duration × σ) : (s.jitter spread draw).ContinuesBelow n := by
  refine h.of_carried id rfl fun state context world => ?_
  obtain ⟨hdecision, hstate⟩ := jitter_step s spread draw state context world
  exact ⟨by rw [id, hdecision, Decision.continues_mapDelay], hstate⟩

theorem noDelayOnFirstRetry (h : s.ContinuesBelow n) : s.noDelayOnFirstRetry.ContinuesBelow n := by
  refine h.of_carried id rfl fun state context world => ?_
  simp only [Schedule.noDelayOnFirstRetry, id]
  split
  · rename_i hfirst
    rw [Bool.and_eq_true] at hfirst
    exact ⟨hfirst.2.symm, rfl⟩
  · exact ⟨rfl, rfl⟩

/-! ### Two schedules -/

/-- **Side by side**, the least bound counts. -/
theorem sideBySide {merge : Decision → Decision → Decision}
    (hmerge : ∀ d d', (merge d d').continues = (d.continues && d'.continues))
    (hl : l.ContinuesBelow m) (hr : r.ContinuesBelow n) :
    (Schedule.sideBySide merge l r).ContinuesBelow (min m n) := by
  obtain ⟨I, hl⟩ := hl
  obtain ⟨J, hr⟩ := hr
  refine ⟨fun i state => I i state.1 ∧ J i state.2, ⟨hl.start, hr.start⟩, ?_, ?_⟩
  · intro state context world hstate
    rw [lt_min_iff, ← hl.continues state.1 context world hstate.1,
      ← hr.continues state.2 context (l.step state.1 context world).world hstate.2,
      ← Bool.and_eq_true]
    exact iff_of_eq (congrArg (· = true) (hmerge _ _))
  · intro state context world hstate i hle hlt
    exact ⟨hl.step state.1 context world hstate.1 i hle hlt,
      hr.step state.2 context _ hstate.2 i hle hlt⟩

theorem union (hl : l.ContinuesBelow m) (hr : r.ContinuesBelow n) :
    (l.union r).ContinuesBelow (min m n) :=
  sideBySide (fun d d' => by cases d <;> cases d' <;> rfl) hl hr

theorem intersect (hl : l.ContinuesBelow m) (hr : r.ContinuesBelow n) :
    (l.intersect r).ContinuesBelow (min m n) :=
  sideBySide (fun d d' => by cases d <;> cases d' <;> rfl) hl hr

end ContinuesBelow

/-- The invariant of two schedules one after the other, made from those of the two: the first stays
in place until its bound `m` is reached, and the second counts from there. -/
def Stage.Satisfies {τ υ : Type} (I : Nat → τ → Prop) (m : ℕ∞) (J : Nat → υ → Prop) (i : Nat) :
    Stage τ υ → Prop
  | .first state => I i state ∧ (i : ℕ∞) ≤ m
  | .second state origin =>
    (origin.iteration : ℕ∞) = m ∧ origin.iteration ≤ i ∧ J (i - origin.iteration) state

namespace Bounded

variable {I : Nat → a.State → Prop} {J : Nat → b.State → Prop} {context : Context}

/-- The step of the second schedule, which sees the number of decisions since its origin. -/
theorem andThen_second (hb : b.Bounded n J) {state : b.State} {origin : Context} (world : σ)
    (h : Stage.Satisfies I m J context.iteration (.second state origin)) :
    (((a.andThen b).step (.second state origin) context world).decision.continues = true ↔
        (context.iteration : ℕ∞) < m + n) ∧
      ∀ i, context.iteration ≤ i → i ≤ context.iteration + 1 →
        Stage.Satisfies I m J i
          ((a.andThen b).step (.second state origin) context world).state := by
  obtain ⟨rfl, hle, hstate⟩ := h
  refine ⟨?_, fun i hi hi' => ⟨rfl, Nat.le_trans hle hi, ?_⟩⟩
  · rw [lt_add_iff_sub_lt hle]
    exact hb.continues state (context.since origin) world hstate
  · refine hb.step state (context.since origin) world hstate _ (Nat.sub_le_sub_right hi _) ?_
    show i - origin.iteration ≤ context.iteration - origin.iteration + 1
    omega

/-- The step of the first schedule, or when it has reached its bound, the first of the second. -/
theorem andThen_first (ha : a.Bounded m I) (hb : b.Bounded n J) {state : a.State} (world : σ)
    (h : Stage.Satisfies I m J context.iteration (.first state)) :
    (((a.andThen b).step (.first state) context world).decision.continues = true ↔
        (context.iteration : ℕ∞) < m + n) ∧
      ∀ i, context.iteration ≤ i → i ≤ context.iteration + 1 →
        Stage.Satisfies I m J i ((a.andThen b).step (.first state) context world).state := by
  have hdecision := ha.continues state context world h.1
  rcases (a.step state context world).decision.continues_or_complete with hcontinues | hcomplete
  · have hlt := hdecision.mp hcontinues
    rw [step_andThen_of_continues hcontinues]
    refine ⟨iff_of_true hcontinues (lt_of_lt_of_le hlt le_self_add), ?_⟩
    intro i hle hi
    exact ⟨ha.step state context world h.1 i hle hi,
      le_trans (Nat.cast_le.mpr hi) (Order.add_one_le_of_lt hlt)⟩
  · -- the first has reached its bound, so the second makes this step, and counts from here
    rw [hcomplete, Decision.continues_complete] at hdecision
    have hm : (context.iteration : ℕ∞) = m :=
      le_antisymm h.2 (not_lt.mp fun hlt => Bool.false_ne_true (hdecision.mpr hlt))
    rw [step_andThen_of_complete hcomplete]
    refine hb.andThen_second _ ⟨hm, Nat.le_refl _, ?_⟩
    rw [Nat.sub_self]
    exact hb.start

end Bounded

/-- **One after the other**, the bounds add up. -/
theorem ContinuesBelow.andThen (ha : a.ContinuesBelow m) (hb : b.ContinuesBelow n) :
    (a.andThen b).ContinuesBelow (m + n) := by
  obtain ⟨I, ha⟩ := ha
  obtain ⟨J, hb⟩ := hb
  refine ⟨Stage.Satisfies I m J, ⟨ha.start, bot_le⟩, ?_, ?_⟩
  · rintro (state | ⟨state, origin⟩) context world h
    · exact (ha.andThen_first hb world h).1
    · exact (hb.andThen_second world h).1
  · rintro (state | ⟨state, origin⟩) context world h
    · exact (ha.andThen_first hb world h).2
    · exact (hb.andThen_second world h).2

/-! ### Dry runs -/

namespace ContinuesBelow

/-- The decisions in the course of a schedule with a bound. -/
theorem continues_decisionAt (h : s.ContinuesBelow n) (world : σ) (i : Nat) :
    (s.decisionAt world i).continues = true ↔ ((min i maxCount : Nat) : ℕ∞) < n := by
  obtain ⟨I, h⟩ := h
  rw [← s.iteration_position world]
  refine h.along (p := s.position world) rfl rfl (fun _ => rfl) (fun j => ?_) i
  rw [iteration_position, iteration_position]
  omega

/-- **A bound that can be counted** is where the schedule is complete. -/
theorem completesAt {k : Nat} (h : s.ContinuesBelow k) (hk : k ≤ maxCount) (world : σ) :
    s.CompletesAt world k := by
  refine ⟨fun i hi => ?_, ?_⟩
  · rw [h.continues_decisionAt, Nat.min_eq_left (Nat.le_trans (Nat.le_of_lt hi) hk)]
    exact Nat.cast_lt.mpr hi
  · rw [← Decision.continues_eq_false, Bool.eq_false_iff, Ne, h.continues_decisionAt,
      Nat.min_eq_left hk]
    exact lt_irrefl _

/-- **A bound beyond what is counted** is never reached. -/
theorem not_completes (h : s.ContinuesBelow n) (hn : (maxCount : ℕ∞) < n) (world : σ) :
    ¬ s.Completes world := by
  rw [completes_iff_not_forall, not_not]
  intro i
  rw [h.continues_decisionAt]
  exact lt_of_le_of_lt (Nat.cast_le.mpr (Nat.min_le_right _ _)) hn

end ContinuesBelow

end Schedule

end Cadence
