import Cadence.Proofs.Schedule.Interleaving

/-!
# Runs of expressions are independent

All that the runs of two expressions can share is in the sources and clocks that both name. A step
leaves every other source and clock as it is. So runs of expressions that name no common source or
clock can be carried on side by side in any order, and each decides what it decides alone. In
particular any number of runs of one expression without names can: its schedule keeps nothing
between two runs.

## Main definitions

* `Sources.Untouched` — a source or a clock is as it was
* `Expr.RunsApart` — what holds of the runs of expressions side by side

## Main results

* `Expr.moves_untouched` — steps leave alone what the expression does not name
* `Expr.runs_independent` — runs of expressions without a common name are independent
-/

namespace Cadence

open Schedule

/-! ### What is not named -/

namespace Sources

/-- The source of randomness or the clock with a name is as it was. -/
def Untouched (name : InputName) (w w' : Sources) : Prop :=
  match name with
  | .random source => w'.random source = w.random source
  | .clock i => w'.clock i = w.clock i

variable {name : InputName}

theorem Untouched.refl (name : InputName) (w : Sources) : Untouched name w w := by
  cases name <;> rfl

theorem Untouched.trans {w w' w'' : Sources} (h : Untouched name w w')
    (h' : Untouched name w' w'') : Untouched name w w'' := by
  cases name with
  | random source => exact Eq.trans h' h
  | clock i => exact Eq.trans h' h

/-- What is put together of moves that leave a source or a clock alone leaves it alone. -/
theorem composes_untouched (name : InputName) :
    Move.Composes fun f : Move Sources _ => ∀ w, Untouched name w (f w).2 where
  pure _ w := .refl name w
  bind hf hnext w := (hf w).trans (hnext _ _)

/-- A draw or a reading leaves all other sources and clocks alone. -/
theorem untouched_ask {q : Query} (h : q.name ≠ name) (w : Sources) :
    Untouched name w (readings.ask q w).2 := by
  have hdraw : ∀ (source : SourceName) (r : RandomSource), .random source ≠ name →
      Untouched name w (w.setRandom source r) := by
    intro source r hne
    cases name with
    | random other =>
      refine (w.random_setRandom source other r).trans (if_neg ?_)
      rintro rfl
      exact hne rfl
    | clock i => exact w.clock_setRandom source r i
  cases q with
  | unit source => exact hdraw source _ h
  | uniformDuration source low high => exact hdraw source _ h
  | now clock =>
    cases name with
    | random source => exact w.random_setClock clock _ source
    | clock i =>
      refine (w.clock_setClock clock i _).trans (if_neg ?_)
      rintro rfl
      exact h rfl

end Sources

namespace Expr

/-- **Steps leave alone what the expression does not name.** -/
theorem moves_untouched {e : Expr} {name : InputName} (h : name ∉ e.names) :
    e.schedule.Moves fun f => ∀ w, Sources.Untouched name w (f w).2 := by
  rw [← e.scheduleIn_readings]
  refine moves (Sources.composes_untouched name) Sources.readings fun q hq => ?_
  exact Sources.untouched_ask fun hname => h (hname ▸ hq)

theorem separate_schedule {e e' : Expr} (h : e.names.Disjoint e'.names) :
    e.schedule.Separate e'.schedule := by
  rw [← e.scheduleIn_readings, ← e'.scheduleIn_readings]
  exact separate_of_disjoint Sources.separate_readings h

/-! ### Side by side -/

variable {ι : Type} [DecidableEq ι]

/-- How runs of expressions go that are carried on side by side in one world. -/
structure RunsApart (e : ι → Expr) (todo : List (ι × Act))
    (all : ∀ i, Standing (e i).schedule.State) (world : Sources) : Prop where
  /-- A run whose expression names nothing that any other names decides what it decides when the
  same is done with it alone, from the same sources, and comes to stand in the same place. -/
  alone : ∀ i, (∀ j, j ≠ i → (e i).names.Disjoint (e j).names) →
    let whole := interleave (fun i => (e i).schedule) todo all world
    let own := (e i).schedule.acts (entriesOf i todo) (all i) world
    entriesOf i whole.1.1 = own.1.1 ∧ whole.1.2 i = own.1.2
  /-- If it was fresh and is only stepped, it follows the course of its schedule. -/
  course : ∀ i n, (∀ j, j ≠ i → (e i).names.Disjoint (e j).names) →
    all i = (e i).schedule.fresh → entriesOf i todo = List.replicate n .step →
      entriesOf i (interleave (fun i => (e i).schedule) todo all world).1.1 =
        (List.range n).map ((e i).schedule.decisionAt world)
  /-- Runs whose expressions share names only with each other decide together what they decide when
  nothing is done with the others, and come to stand in the same place. -/
  together : ∀ (own : ι → Prop) [DecidablePred own],
    (∀ i j, own i → ¬ own j → (e i).names.Disjoint (e j).names) →
      let whole := interleave (fun i => (e i).schedule) todo all world
      let part := interleave (fun i => (e i).schedule) (todo.filter fun x => own x.1) all world
      whole.1.1.filter (fun x => own x.1) = part.1.1 ∧ ∀ i, own i → whole.1.2 i = part.1.2 i
  /-- A step leaves all sources and clocks as they are that its expression does not name. -/
  step : ∀ i state context name, name ∉ (e i).names →
    Sources.Untouched name world ((e i).schedule.step state context world).world
  /-- So do all acts together, if none of their expressions names them. -/
  untouched : ∀ name, (∀ i a, (i, a) ∈ todo → name ∉ (e i).names) →
    Sources.Untouched name world (interleave (fun i => (e i).schedule) todo all world).2

/-- **Runs of expressions are independent**, in whichever order they are stepped, restarted and
given other contexts. -/
theorem runs_independent (e : ι → Expr) (todo : List (ι × Act))
    (all : ∀ i, Standing (e i).schedule.State) (world : Sources) : RunsApart e todo all world := by
  have halone : ∀ i, (∀ j, j ≠ i → (e i).names.Disjoint (e j).names) →
      let whole := interleave (fun i => (e i).schedule) todo all world
      let own := (e i).schedule.acts (entriesOf i todo) (all i) world
      entriesOf i whole.1.1 = own.1.1 ∧ whole.1.2 i = own.1.2 :=
    fun i hi => interleave_alone (s := fun i => (e i).schedule)
      (fun j hj => separate_schedule (hi j hj)) todo all world
  refine ⟨halone, ?_, ?_, ?_, ?_⟩
  · intro i n hi hfresh hsteps
    rw [(halone i hi).1, hsteps, hfresh, acts_replicate_step]
  · intro own _ hown
    obtain ⟨hmade, hend⟩ := interleave_filter (s := fun i => (e i).schedule)
      (fun i j hi hj => separate_schedule (hown i j hi hj)) todo (.refl _ own all world)
    exact ⟨hmade, hend.standing⟩
  · intro i state context name hname
    exact moves_untouched hname state context world
  · intro name hname
    exact Moves.interleave (s := fun i => (e i).schedule) (Sources.composes_untouched name)
      (fun i a hi => moves_untouched (hname i a hi)) all world

end Expr

end Cadence
