import Cadence.Proofs.Run.Lockstep
import Cadence.Proofs.Schedule.Sequence

/-!
# Sequencing is a monoid

Three schedules one after the other can be grouped in two ways, and it does not matter in which. The
schedule that makes no second run is neutral on both sides.

The two groupings keep different states: one counts from two origins where the other counts from an
origin within what was counted since another. They are related phase by phase. Since a schedule that
is complete hands over in the same step, a step in which a phase ends is a step of the next phase,
so the end of one phase needs no argument of its own.

## Main definitions

* `Schedule.Regrouped` — the states of the two groupings in each phase
* `Schedule.Introduced` — the states of a schedule with and without `once` before it

## Main results

* `Schedule.lockstep_regrouped`, `lockstep_introduced`, `lockstep_concluded` — the three laws
* `Schedule.sequencing_monoid` — no run can tell the two sides of these laws apart
-/

namespace Cadence.Schedule

variable {σ : Type} {a b c : Schedule σ} {world : σ} {context origin middle : Context}

/-! ### Handing over -/

/-- When the first schedule is complete, the step is that of the second, just started. -/
theorem step_andThen_switch {state : a.State}
    (h : (a.step state context world).decision = .complete) :
    (a.andThen b).step (.first state) context world =
      (a.andThen b).step (.second b.start context) context (a.step state context world).world :=
  step_andThen_of_complete h

/-- The first schedule matters only by its step. -/
theorem step_andThen_congr {x y : a.State} {world' : σ}
    (h : a.step x context world = a.step y context world') :
    (a.andThen b).step (.first x) context world = (a.andThen b).step (.first y) context world' := by
  simp only [andThen, h]

/-! ### Grouping three schedules -/

/-- The states of three schedules one after the other, grouped in two ways, in the phase of each. -/
inductive Regrouped (a b c : Schedule σ) (context : Context) :
    ((a.andThen b).andThen c).State → (a.andThen (b.andThen c)).State → Prop where
  /-- None is complete. -/
  | first (x : a.State) : Regrouped a b c context (.first (.first x)) (.first x)
  /-- The first was complete at `origin`. -/
  | second (y : b.State) {origin : Context} (h : origin.Before context) :
    Regrouped a b c context (.first (.second y origin)) (.second (.first y) origin)
  /-- The first was complete at `origin`, and the second at `middle`. -/
  | third (z : c.State) {origin middle : Context} (h : origin.Before middle)
    (h' : middle.Before context) :
    Regrouped a b c context (.second z middle) (.second (.second z (middle.since origin)) origin)

/-- The groupings decide the same in two states, and go on from related ones. -/
def Regroups (a b c : Schedule σ) (context : Context) (world : σ)
    (x : ((a.andThen b).andThen c).State) (y : (a.andThen (b.andThen c)).State) : Prop :=
  (((a.andThen b).andThen c).step x context world).Agree
    (Regrouped a b c
      (context.next (((a.andThen b).andThen c).step x context world).decision))
    ((a.andThen (b.andThen c)).step y context world)

namespace Regroups

variable {x x' : ((a.andThen b).andThen c).State} {y y' : (a.andThen (b.andThen c)).State}

theorem of_step {d : Decision} {left : σ}
    (hx : ((a.andThen b).andThen c).step x context world = ⟨d, x', left⟩)
    (hy : (a.andThen (b.andThen c)).step y context world = ⟨d, y', left⟩)
    (h : Regrouped a b c (context.next d) x' y') : Regroups a b c context world x y := by
  unfold Regroups
  rw [hx, hy]
  exact ⟨rfl, rfl, fun _ => h⟩

/-- The same steps can be made in other states. -/
theorem congr {world' : σ}
    (hx : ((a.andThen b).andThen c).step x context world =
      ((a.andThen b).andThen c).step x' context world')
    (hy : (a.andThen (b.andThen c)).step y context world =
      (a.andThen (b.andThen c)).step y' context world')
    (h : Regroups a b c context world' x' y') : Regroups a b c context world x y := by
  unfold Regroups at h ⊢
  rw [hx, hy]
  exact h

theorem third (z : c.State) (h : origin.Before middle) (h' : middle.Before context) (world : σ) :
    Regroups a b c context world (.second z middle)
      (.second (.second z (middle.since origin)) origin) := by
  have hnested : ((c.step z ((context.since origin).since (middle.since origin)) world).second
      (middle.since origin)).second origin =
        (((c.step z (context.since middle) world).second (middle.since origin)).second origin :
          Step (Stage a.State (Stage b.State c.State)) σ) := by
    rw [h.since_since h']
  exact of_step rfl hnested (.third _ h (h'.next _))

theorem second (y : b.State) (h : origin.Before context) (world : σ) :
    Regroups a b c context world (.first (.second y origin)) (.second (.first y) origin) := by
  rcases (b.step y (context.since origin) world).decision.continues_or_complete with hb | hb
  · exact of_step (step_andThen_of_continues hb)
      (congrArg (Step.second · origin) (step_andThen_of_continues hb)) (.second _ (h.next _))
  · -- the second hands over to the third in this step
    have hright : (a.andThen (b.andThen c)).step (.second (.first y) origin) context world =
        (a.andThen (b.andThen c)).step (.second (.second c.start (context.since origin)) origin)
          context (b.step y (context.since origin) world).world :=
      congrArg (Step.second · origin) (step_andThen_switch hb)
    exact congr (step_andThen_switch hb) hright (third c.start h (Context.before_refl context) _)

theorem first (x : a.State) (world : σ) :
    Regroups a b c context world (.first (.first x)) (.first x) := by
  rcases (a.step x context world).decision.continues_or_complete with ha | ha
  · have hinner : (a.andThen b).step (.first x) context world =
        ⟨_, .first (a.step x context world).state, _⟩ := step_andThen_of_continues ha
    have hcontinues : ((a.andThen b).step (.first x) context world).decision.continues = true := by
      rw [hinner]
      exact ha
    refine of_step ((step_andThen_of_continues hcontinues).trans ?_)
      (step_andThen_of_continues ha) (.first _)
    rw [hinner]
  · -- the first hands over to the second in this step
    exact congr (step_andThen_congr (step_andThen_switch ha)) (step_andThen_switch ha)
      (second b.start (Context.before_refl context) _)

end Regroups

/-- **Grouping.** Three schedules one after the other go in lockstep in both groupings. -/
theorem lockstep_regrouped (a b c : Schedule σ) :
    ((a.andThen b).andThen c).Lockstep (a.andThen (b.andThen c)) (Regrouped a b c) where
  start := .first a.start
  step context _ _ world hrelated := by
    cases hrelated with
    | first x => exact Regroups.first x world
    | second y h => exact Regroups.second y h world
    | third z h h' => exact Regroups.third z h h' world

/-! ### No second run -/

/-- The states of a schedule with `once` before it and without: it is started by the first step, so
its origin is the context of a fresh run. -/
inductive Introduced (a : Schedule σ) : Context → (once.andThen a).State → a.State → Prop where
  /-- No step was made. -/
  | first : Introduced a .initial (.first ()) a.start
  /-- Some step was made. -/
  | second {context : Context} (x : a.State) (h : 0 < context.iteration) :
    Introduced a context (.second x .initial) x

/-- **Nothing before.** With `once` before it, a schedule goes in lockstep with itself. -/
theorem lockstep_introduced (a : Schedule σ) : (once.andThen a).Lockstep a (Introduced a) where
  start := .first
  step context _ x world hrelated := by
    have hcounted : ∀ d, 0 < (context.next d).iteration :=
      fun d => Nat.lt_min.mpr ⟨Nat.succ_pos _, by decide⟩
    cases hrelated with
    | first => exact ⟨rfl, rfl, fun _ => .second _ (hcounted _)⟩
    | second _ h =>
      have hsees : (once.andThen a).step (.second x .initial) context world =
          (a.step x context world).second .initial :=
        congrArg (fun seen => (a.step x seen world).second .initial) (Context.since_initial h)
      rw [hsees]
      exact ⟨rfl, rfl, fun _ => .second _ (hcounted _)⟩

/-- **Nothing after.** With `once` after it, a schedule goes in lockstep with itself: when it is
complete, so is `once`. -/
theorem lockstep_concluded (a : Schedule σ) :
    (a.andThen once).Lockstep a fun _ x y => x = .first y where
  start := rfl
  step context _ y world hrelated := by
    subst hrelated
    rcases (a.step y context world).decision.continues_or_complete with ha | ha
    · rw [step_andThen_of_continues ha]
      exact ⟨rfl, rfl, fun _ => rfl⟩
    · rw [step_andThen_switch ha]
      exact ⟨ha.symm, rfl, fun hcontinues => absurd hcontinues Bool.false_ne_true⟩

/-! ### The laws -/

/-- **Sequencing is a monoid.** No run and no dry run, of any length, can tell the two groupings of
three schedules apart, or a schedule from the same one with `once` before it or after it. The
schedules may share all their sources, and the counts may be full. -/
theorem sequencing_monoid (a b c : Schedule σ) :
    ((a.andThen b).andThen c).Interchangeable (a.andThen (b.andThen c)) ∧
      (once.andThen a).Interchangeable a ∧ (a.andThen once).Interchangeable a :=
  ⟨(lockstep_regrouped a b c).interchangeable, (lockstep_introduced a).interchangeable,
    (lockstep_concluded a).interchangeable⟩

end Cadence.Schedule
