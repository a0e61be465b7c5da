import Cadence.Proofs.Expr.Names
import Cadence.Proofs.Run.Lockstep

/-!
# The laws of union and intersection

Two decisions are merged as in a lattice: the order and the grouping make no difference, a decision
merged with itself is the same, `runAgain` is neutral and `complete` absorbs all others. Side by
side, schedules obey the same laws, but not all of them always do. The grouping of three schedules
never makes a difference, for in both groupings they are stepped in the same order, also after one
of them is complete. Their order does when they share a source, since the first takes what would
have been for the second. And a schedule beside itself is the same schedule only if it has no
sources, since it would take twice as much from them.

## Main definitions

* `Decision.MergeLaws` — the laws of merged decisions
* `Schedule.Mirrors` — a schedule does the same as another one, in states that correspond
* `Schedule.SameCourse`, `Schedule.SameDecisions` — what holds of two equal schedules
* `Schedule.SideBySideLaws` — the laws of schedules side by side

## Main results

* `Schedule.Mirrors.sameCourse` — no dry run and no run can tell a schedule from its mirror image
* `Schedule.sideBySideLaws` — the laws hold of schedules side by side if they hold of decisions
* `Schedule.union_intersect_laws` — the laws of union and intersection
-/

namespace Cadence

variable {σ : Type}

/-! ### Merged decisions -/

namespace Decision

/-- The laws of merged decisions. -/
structure MergeLaws (merge : Decision → Decision → Decision) : Prop where
  /-- The grouping makes no difference. -/
  assoc : ∀ a b c, merge (merge a b) c = merge a (merge b c)
  /-- The order makes no difference. -/
  comm : ∀ a b, merge a b = merge b a
  /-- A decision merged with itself is the same. -/
  idem : ∀ d, merge d d = d
  /-- `runAgain` is neutral. -/
  runAgain_left : ∀ d, merge .runAgain d = d
  /-- `complete` absorbs all others. -/
  complete_left : ∀ d, merge .complete d = .complete

namespace MergeLaws

variable {merge : Decision → Decision → Decision}

theorem runAgain_right (laws : MergeLaws merge) (d : Decision) : merge d .runAgain = d := by
  rw [laws.comm, laws.runAgain_left]

theorem complete_right (laws : MergeLaws merge) (d : Decision) :
    merge d .complete = .complete := by
  rw [laws.comm, laws.complete_left]

end MergeLaws

/-- Decisions are merged by these laws if two delays are. -/
theorem mergeLaws {pick : Duration → Duration → Duration}
    (hassoc : ∀ a b c, pick (pick a b) c = pick a (pick b c)) (hcomm : ∀ a b, pick a b = pick b a)
    (hidem : ∀ d, pick d d = d) : MergeLaws (merge pick) where
  assoc a b c := by
    cases a with
    | complete => cases b <;> cases c <;> rfl
    | runAgain => cases b <;> cases c <;> rfl
    | runAfter delay =>
      cases b with
      | complete => cases c <;> rfl
      | runAgain => cases c <;> rfl
      | runAfter delay' =>
        cases c with
        | complete => rfl
        | runAgain => rfl
        | runAfter delay'' => exact congrArg runAfter (hassoc delay delay' delay'')
  comm a b := by
    cases a with
    | complete => cases b <;> rfl
    | runAgain => cases b <;> rfl
    | runAfter delay =>
      cases b with
      | complete => rfl
      | runAgain => rfl
      | runAfter delay' => exact congrArg runAfter (hcomm delay delay')
  idem d := by
    cases d with
    | complete => rfl
    | runAgain => rfl
    | runAfter delay => exact congrArg runAfter (hidem delay)
  runAgain_left d := by cases d <;> rfl
  complete_left _ := rfl

theorem mergeLaws_union : MergeLaws union := by
  refine mergeLaws (fun a b c => Duration.ext ?_) (fun a b => Duration.ext ?_)
    (fun d => Duration.ext ?_)
  · simp only [Duration.nanos_min, Nat.min_assoc]
  · simp only [Duration.nanos_min, Nat.min_comm]
  · simp only [Duration.nanos_min, Nat.min_self]

theorem mergeLaws_intersect : MergeLaws intersect := by
  refine mergeLaws (fun a b c => Duration.ext ?_) (fun a b => Duration.ext ?_)
    (fun d => Duration.ext ?_)
  · simp only [Duration.nanos_max, Nat.max_assoc]
  · simp only [Duration.nanos_max, Nat.max_comm]
  · simp only [Duration.nanos_max, Nat.max_self]

end Decision

/-! ### Mirror images -/

/-- A step with its next state changed by `f`. -/
def Step.mapState {τ υ : Type} (f : τ → υ) (made : Step τ σ) : Step υ σ :=
  ⟨made.decision, f made.state, made.world⟩

namespace Schedule

/-- A schedule `t` does the same as `s`: where `s` has a state, it has the state that `f` gives. -/
structure Mirrors (s t : Schedule σ) (f : s.State → t.State) : Prop where
  /-- Fresh states correspond. -/
  start : t.start = f s.start
  /-- From states that correspond, the same is decided, and the next states correspond. -/
  step : ∀ state context world,
    t.step (f state) context world = (s.step state context world).mapState f

/-- Two schedules decide the same at every step. -/
structure SameDecisions (s t : Schedule σ) : Prop where
  /-- Their dry runs make the same decisions. -/
  decisions : ∀ world n, ((s.dryRun world).decisions n).1 = ((t.dryRun world).decisions n).1
  /-- So they do when they are stepped on after they are complete. -/
  decisionAt : ∀ world n, s.decisionAt world n = t.decisionAt world n

/-- Two schedules decide the same and leave the same world at every step, also after they are
complete, and neither a dry run nor a run can tell them apart. -/
structure SameCourse (s t : Schedule σ) : Prop extends SameDecisions s t where
  /-- They leave the same world. -/
  world_position : ∀ world n, (s.position world n).world = (t.position world n).world
  /-- Nor can anything else tell them apart. -/
  interchangeable : s.Interchangeable t

variable {s t u : Schedule σ} {merge : Decision → Decision → Decision}

/-- Schedules that make the same decisions when they are stepped on and on do so in dry runs. -/
theorem sameDecisions_of_decisionAt (h : ∀ world n, s.decisionAt world n = t.decisionAt world n) :
    s.SameDecisions t where
  decisions world _ := (DryRun.decisions_eq_of_decisionAt fun i _ => (h world i).symm).symm
  decisionAt := h

namespace Mirrors

variable {f : s.State → t.State}

theorem lockstep (h : s.Mirrors t f) : s.Lockstep t fun _ x y => y = f x where
  start := h.start
  step := by
    rintro context x _ world rfl
    rw [h.step]
    exact ⟨rfl, rfl, fun _ => rfl⟩

/-- The mirror image stands where the schedule does. -/
theorem position (h : s.Mirrors t f) (world : σ) (n : Nat) :
    t.position world n =
      let pos := s.position world n
      ⟨f pos.state, pos.context, pos.world⟩ := by
  induction n with
  | zero => exact congrArg (Position.mk · _ _) h.start
  | succ n ih =>
    rw [position_succ, position_succ, stepAt, ih]
    show (t.step (f _) _ _).next _ = _
    rw [h.step]
    rfl

/-- **Mirror images** cannot be told apart. -/
theorem sameCourse (h : s.Mirrors t f) : s.SameCourse t := by
  have hdecisionAt : ∀ world n, s.decisionAt world n = t.decisionAt world n := by
    intro world n
    rw [decisionAt, decisionAt, stepAt, stepAt, h.position]
    show _ = (t.step (f _) _ _).decision
    rw [h.step]
    rfl
  exact {
    sameDecisions_of_decisionAt hdecisionAt with
    world_position := fun world n => by rw [h.position]
    interchangeable := h.lockstep.interchangeable }

end Mirrors

/-! ### The laws -/

/-- In both groupings the three schedules are stepped one after the other. -/
theorem mirrors_assoc (laws : Decision.MergeLaws merge) (s t u : Schedule σ) :
    Mirrors (sideBySide merge (sideBySide merge s t) u) (sideBySide merge s (sideBySide merge t u))
      fun state => (state.1.1, state.1.2, state.2) where
  start := rfl
  step _ _ _ := Step.ext (laws.assoc _ _ _).symm rfl rfl

/-- Two schedules that have nothing to do with each other can be stepped in either order. -/
theorem mirrors_comm (laws : Decision.MergeLaws merge) (h : s.Separate t) :
    Mirrors (sideBySide merge s t) (sideBySide merge t s) Prod.swap where
  start := rfl
  step state context world := by
    obtain ⟨x, y⟩ := state
    have hsep := h x context y context
    have hx := hsep.left world
    have hy := hsep.right world
    simp only [Move.ofStep, Prod.mk.injEq] at hx hy
    refine Step.ext ?_ ?_ (hsep.world world).symm
    · show merge (t.step y context world).decision
          (s.step x context (t.step y context world).world).decision =
        merge (s.step x context world).decision
          (t.step y context (s.step x context world).world).decision
      rw [hx.1, hy.1, laws.comm]
    · show ((t.step y context world).state,
          (s.step x context (t.step y context world).world).state) =
        ((t.step y context (s.step x context world).world).state, (s.step x context world).state)
      rw [hx.2, hy.2]

/-- A schedule without sources makes the same step twice. -/
theorem mirrors_idem (laws : Decision.MergeLaws merge) (h : s.Sourceless) :
    Mirrors s (sideBySide merge s s) fun state => (state, state) where
  start := rfl
  step state context world := by
    obtain ⟨decision, next, hstep⟩ := h state context
    simp only [sideBySide, Step.mapState, hstep, laws.idem]

theorem mirrors_forever_left (laws : Decision.MergeLaws merge) (s : Schedule σ) :
    Mirrors s (sideBySide merge forever s) fun state => ((), state) where
  start := rfl
  step _ _ _ := Step.ext (laws.runAgain_left _) rfl rfl

theorem mirrors_forever_right (laws : Decision.MergeLaws merge) (s : Schedule σ) :
    Mirrors s (sideBySide merge s forever) fun state => (state, ()) where
  start := rfl
  step _ _ _ := Step.ext (laws.runAgain_right _) rfl rfl

/-- The laws of a way `op` to have two schedules side by side. -/
structure SideBySideLaws (op : ∀ {σ : Type}, Schedule σ → Schedule σ → Schedule σ) : Prop where
  /-- The grouping makes no difference, whatever sources the schedules share. -/
  assoc : ∀ {σ : Type} (s t u : Schedule σ), SameCourse (op (op s t) u) (op s (op t u))
  /-- The order makes no difference to schedules that have nothing to do with each other. -/
  comm : ∀ {σ : Type} {s t : Schedule σ}, s.Separate t → SameCourse (op s t) (op t s)
  /-- The order makes no difference to expressions that name no common source or clock. -/
  comm_of_disjoint : ∀ {σ : Type} {readings : Readings σ} {e e' : Expr}, readings.Separate →
    e.names.Disjoint e'.names →
    SameCourse (op (e.scheduleIn readings) (e'.scheduleIn readings))
      (op (e'.scheduleIn readings) (e.scheduleIn readings))
  /-- A schedule without sources is the same beside itself. -/
  idem : ∀ {σ : Type} {s : Schedule σ}, s.Sourceless → SameCourse s (op s s)
  /-- So is an expression that names no source and no clock. -/
  idem_of_names : ∀ {σ : Type} (readings : Readings σ) {e : Expr}, e.names = [] →
    SameCourse (e.scheduleIn readings) (op (e.scheduleIn readings) (e.scheduleIn readings))
  /-- `forever` is neutral on the left. -/
  forever_left : ∀ {σ : Type} (s : Schedule σ), SameCourse s (op forever s)
  /-- `forever` is neutral on the right. -/
  forever_right : ∀ {σ : Type} (s : Schedule σ), SameCourse s (op s forever)
  /-- `once` absorbs what is on its right. That is stepped all the same, so its sources are not as
  `once` alone would leave them. -/
  once_left : ∀ {σ : Type} (s : Schedule σ), SameDecisions once (op once s)
  /-- `once` absorbs what is on its left. -/
  once_right : ∀ {σ : Type} (s : Schedule σ), SameDecisions once (op s once)

/-- **Side by side**, schedules obey the laws of the decisions they make. -/
theorem sideBySideLaws (laws : Decision.MergeLaws merge) :
    SideBySideLaws fun {σ} (s t : Schedule σ) => sideBySide merge s t where
  assoc s t u := (mirrors_assoc laws s t u).sameCourse
  comm h := (mirrors_comm laws h).sameCourse
  comm_of_disjoint hreadings hdisjoint :=
    (mirrors_comm laws (Expr.separate_of_disjoint hreadings hdisjoint)).sameCourse
  idem h := (mirrors_idem laws h).sameCourse
  idem_of_names readings _ h := (mirrors_idem laws (Expr.sourceless_of_names readings h)).sameCourse
  forever_left s := (mirrors_forever_left laws s).sameCourse
  forever_right s := (mirrors_forever_right laws s).sameCourse
  once_left _ := sameDecisions_of_decisionAt fun _ _ => (laws.complete_left _).symm
  once_right _ := sameDecisions_of_decisionAt fun _ _ => (laws.complete_right _).symm

/-- **The laws of union and intersection.** Both group as one likes, also schedules that share
sources and clocks. The order makes no difference to schedules that share none, and expressions that
name no common source or clock are such, over the named sources and over all others that have
nothing to do with each other under different names. Schedules without sources are the same beside
themselves, `forever` is neutral and `once` absorbs. -/
theorem union_intersect_laws :
    SideBySideLaws union ∧ SideBySideLaws intersect ∧ Sources.readings.Separate ∧
      ∀ e : Expr, e.schedule = e.scheduleIn Sources.readings :=
  ⟨sideBySideLaws Decision.mergeLaws_union, sideBySideLaws Decision.mergeLaws_intersect,
    Sources.separate_readings, fun e => e.scheduleIn_readings.symm⟩

/-- Two expressions that draw from one source, here a count, decide otherwise in the other order. -/
example :
    let readings : Readings Nat :=
      ⟨fun _ n => (0, n + 1), fun _ _ _ n => (.ofNanos n, n + 1), fun _ n => (.epoch, n)⟩
    let jittered (nanos : Nat) : Schedule Nat :=
      (Expr.jitter (.spaced (.ofNanos nanos)) (.between 0 0) .shared).scheduleIn readings
    ((jittered 0).union (jittered 5)).decisionAt 0 0 = .runAfter (.ofNanos 0) ∧
      ((jittered 5).union (jittered 0)).decisionAt 0 0 = .runAfter (.ofNanos 1) :=
  ⟨rfl, rfl⟩

end Schedule

end Cadence
