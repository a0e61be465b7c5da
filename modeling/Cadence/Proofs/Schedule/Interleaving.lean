import Mathlib.Logic.Function.Basic
import Cadence.Proofs.Expr.Names

/-!
# Runs side by side in one world

Several runs are carried on in one world, in any order: now one of them is stepped, now another, and
at any point a run is given a fresh state or another context. Each has a state and a context of its
own, so all that one run can notice of another is in the world. If the steps of their schedules have
nothing to do with each other, that is nothing: each run decides what it decides when it is carried
on alone.

Runs that do share something can be taken together. They decide what they decide without all those
from which they are separate.

## Main definitions

* `Standing` — where a run stands, apart from the world
* `Act` — what is done with a run
* `Schedule.act`, `Schedule.acts` — one act with a run, and many
* `Schedule.interleave` — acts with several runs in one world
* `Schedule.Abreast` — two worlds look the same to some of the runs

## Main results

* `Schedule.acts_replicate_step` — a run that is only stepped follows the course of its schedule
* `Schedule.Moves.interleave` — what is true of all steps is true of runs side by side
* `Schedule.interleave_filter` — runs decide the same without those from which they are separate
* `Schedule.interleave_alone` — a run that is separate from all others decides what it does alone
-/

namespace Cadence

variable {σ : Type}

/-- Where a run stands whose schedule has states `τ`, apart from the world. -/
@[ext]
structure Standing (τ : Type) where
  /-- The state of its schedule. -/
  state : τ
  /-- The context of its next decision. -/
  context : Context

/-- What is done with a run. -/
inductive Act where
  /-- It is given a fresh state. -/
  | restart
  /-- It is given another context. -/
  | reframe (change : Context → Context)
  /-- Its schedule is stepped, and its context is that after the decision. -/
  | step

namespace Schedule

/-! ### One run -/

/-- Where a fresh run stands. -/
def fresh (s : Schedule σ) : Standing s.State := ⟨s.start, .initial⟩

/-- One act with a run, which decides something if it is stepped. -/
def act (s : Schedule σ) (own : Standing s.State) :
    Act → Move σ (Option Decision × Standing s.State)
  | .restart => Move.pure (none, { own with state := s.start })
  | .reframe change => Move.pure (none, { own with context := change own.context })
  | .step => fun world =>
    let made := s.step own.state own.context world
    ((some made.decision, ⟨made.state, own.context.next made.decision⟩), made.world)

/-- Acts with a run, in order. -/
def acts (s : Schedule σ) : List Act → Standing s.State → Move σ (List Decision × Standing s.State)
  | [], own => Move.pure ([], own)
  | a :: rest, own => fun world =>
    let made := s.act own a world
    let later := s.acts rest made.1.2 made.2
    ((made.1.1.toList ++ later.1.1, later.1.2), later.2)

/-- Stepped from where its schedule stands after `n` decisions, a run makes the next ones. -/
theorem acts_replicate_step_position (s : Schedule σ) (world : σ) (m n : Nat) :
    s.acts (List.replicate m .step) ⟨(s.position world n).state, (s.position world n).context⟩
        (s.position world n).world =
      (((List.range m).map fun i => s.decisionAt world (n + i),
          ⟨(s.position world (n + m)).state, (s.position world (n + m)).context⟩),
        (s.position world (n + m)).world) := by
  induction m generalizing n with
  | zero => rfl
  | succ m ih =>
    have hnext := ih (n + 1)
    rw [Nat.add_assoc, Nat.add_comm 1 m] at hnext
    simp only [List.replicate_succ, acts, List.range_succ_eq_map, List.map_cons, List.map_map]
    refine (congrArg (fun later : (List Decision × Standing s.State) × σ =>
      ((s.decisionAt world n :: later.1.1, later.1.2), later.2)) hnext).trans ?_
    refine Prod.ext (Prod.ext (congrArg (_ :: ·) (List.map_congr_left fun i _ => ?_)) rfl) rfl
    rw [Nat.add_right_comm, Nat.add_assoc]
    rfl

/-- A fresh run that is only stepped follows the course of its schedule. -/
theorem acts_replicate_step (s : Schedule σ) (world : σ) (n : Nat) :
    (s.acts (List.replicate n .step) s.fresh world).1.1 =
      (List.range n).map (s.decisionAt world) := by
  refine (congrArg (·.1.1) (s.acts_replicate_step_position world n 0)).trans ?_
  simp only [Nat.zero_add]

/-! ### Several runs -/

section Runs

variable {ι β : Type} [DecidableEq ι] {s : ι → Schedule σ}

/-- The entries of one run in a list for several. -/
def entriesOf (i : ι) (entries : List (ι × β)) : List β :=
  (entries.filter (·.1 = i)).map Prod.snd

/-- Acts with several runs in one world, in order. Every decision comes with the run that has made
it. -/
def interleave (s : ι → Schedule σ) : List (ι × Act) → (∀ i, Standing (s i).State) →
    Move σ (List (ι × Decision) × ∀ i, Standing (s i).State)
  | [], all => Move.pure ([], all)
  | (i, a) :: rest, all => fun world =>
    let made := (s i).act (all i) a world
    let later := interleave s rest (Function.update all i made.1.2) made.2
    ((made.1.1.toList.map (i, ·) ++ later.1.1, later.1.2), later.2)

section Moves

open Move

variable {P : ∀ {α : Type}, Move σ α → Prop}

theorem Moves.act (law : Composes P) {s : Schedule σ} (h : s.Moves P) (own : Standing s.State)
    (a : Act) : P (s.act own a) := by
  cases a with
  | restart => exact law.pure _
  | reframe change => exact law.pure _
  | step =>
    exact law.bind (h own.state own.context) fun made =>
      law.pure (some made.1, (⟨made.2, own.context.next made.1⟩ : Standing s.State))

/-- **What is true of moves that are put together**, and of all steps of the schedules with whose
runs something is done, is true of runs side by side. -/
theorem Moves.interleave (law : Composes P) {todo : List (ι × Act)}
    (h : ∀ i a, (i, a) ∈ todo → (s i).Moves P) (all : ∀ i, Standing (s i).State) :
    P (Schedule.interleave s todo all) := by
  induction todo generalizing all with
  | nil => exact law.pure _
  | cons first rest ih =>
    obtain ⟨i, a⟩ := first
    have hlater (made : Option Decision × Standing (s i).State) : P fun world =>
        let later := Schedule.interleave s rest (Function.update all i made.2) world
        ((made.1.toList.map (i, ·) ++ later.1.1, later.1.2), later.2) :=
      law.bind (ih (fun j b hj => h j b (List.mem_cons_of_mem _ hj)) _) fun later =>
        law.pure (made.1.toList.map (i, ·) ++ later.1, later.2)
    exact law.bind ((h i a List.mem_cons_self).act law (all i) a) hlater

end Moves

/-- Acts with runs of schedules that have nothing to do with each other have nothing to do with each
other. -/
theorem Separate.act {s t : Schedule σ} (h : s.Separate t) (own : Standing s.State) (a : Act)
    (own' : Standing t.State) (a' : Act) : (s.act own a).Separate (t.act own' a') := by
  refine Moves.act (Move.composes_separate _) (fun state context => ?_) own a
  refine (Moves.act (Move.composes_separate _) (fun state' context' => ?_) own' a').symm
  exact (h state context state' context').symm

/-! ### Runs that are separate -/

/-- Some of the runs stand where they do in another world, and cannot tell the two worlds apart: the
one comes from the other by a move that has nothing to do with them. -/
structure Abreast (s : ι → Schedule σ) (own : ι → Prop) (all all' : ∀ i, Standing (s i).State)
    (world world' : σ) : Prop where
  /-- They stand in the same place. -/
  standing : ∀ i, own i → all i = all' i
  /-- What was done in the one world only has nothing to do with them. -/
  world : ∃ (α : Type) (f : Move σ α),
    (∀ i, own i → ∀ at' a, ((s i).act at' a).Separate f) ∧ world = (f world').2

variable {own : ι → Prop} {all all' : ∀ i, Standing (s i).State} {world world' : σ}

omit [DecidableEq ι] in
theorem Abreast.refl (s : ι → Schedule σ) (own : ι → Prop) (all : ∀ i, Standing (s i).State)
    (world : σ) : Abreast s own all all world world :=
  ⟨fun _ _ => rfl, Unit, Move.pure (),
    fun _ _ _ _ => ((Move.composes_separate _).pure ()).symm, rfl⟩

/-- An act with one of these runs comes to the same in both worlds. -/
theorem Abreast.act (h : Abreast s own all all' world world') {i : ι} (hi : own i) (a : Act) :
    ((s i).act (all i) a world).1 = ((s i).act (all' i) a world').1 ∧
      Abreast s own (Function.update all i ((s i).act (all i) a world).1.2)
        (Function.update all' i ((s i).act (all' i) a world').1.2)
        ((s i).act (all i) a world).2 ((s i).act (all' i) a world').2 := by
  obtain ⟨α, f, hf, hworld⟩ := h.world
  rw [hworld, h.standing i hi]
  have hsep := hf i hi (all' i) a
  refine ⟨hsep.left world', ?_, α, f, hf, (hsep.world world').symm⟩
  intro j hj
  rw [hsep.left world']
  by_cases hji : j = i
  · obtain rfl := hji
    rw [Function.update_self, Function.update_self]
  · rw [Function.update_of_ne hji, Function.update_of_ne hji]
    exact h.standing j hj

/-- An act with another run, in the one world only, makes no difference to them. -/
theorem Abreast.other (hsep : ∀ i j, own i → ¬ own j → (s i).Separate (s j))
    (h : Abreast s own all all' world world') {j : ι} (hj : ¬ own j) (a : Act) :
    Abreast s own (Function.update all j ((s j).act (all j) a world).1.2) all'
      ((s j).act (all j) a world).2 world' := by
  obtain ⟨α, f, hf, rfl⟩ := h.world
  refine ⟨fun i hi => ?_, _, f.bind fun _ => (s j).act (all j) a, fun i hi at' a' => ?_, rfl⟩
  · have hij : i ≠ j := fun hij => hj (hij ▸ hi)
    rw [Function.update_of_ne hij]
    exact h.standing i hi
  · have hothers : ((s j).act (all j) a).Separate ((s i).act at' a') :=
      ((hsep i j hi hj).act at' a' (all j) a).symm
    exact ((Move.composes_separate _).bind (hf i hi at' a').symm fun _ => hothers).symm

omit [DecidableEq ι] in
/-- The decisions of a run are kept or left out together. -/
theorem filter_map_pair [DecidablePred own] (i : ι) (ds : List Decision) :
    (ds.map (i, ·)).filter (fun x => own x.1) = if own i then ds.map (i, ·) else [] := by
  split
  · refine List.filter_eq_self.mpr fun x hx => ?_
    obtain ⟨d, -, rfl⟩ := List.mem_map.mp hx
    exact decide_eq_true ‹own i›
  · refine List.filter_eq_nil_iff.mpr fun x hx => ?_
    obtain ⟨d, -, rfl⟩ := List.mem_map.mp hx
    simpa using ‹¬ own i›

/-- **Runs decide the same without those from which they are separate**, and come to stand in the
same place. -/
theorem interleave_filter [DecidablePred own]
    (hsep : ∀ i j, own i → ¬ own j → (s i).Separate (s j)) (todo : List (ι × Act))
    (h : Abreast s own all all' world world') :
    let whole := interleave s todo all world
    let part := interleave s (todo.filter fun x => own x.1) all' world'
    whole.1.1.filter (fun x => own x.1) = part.1.1 ∧
      Abreast s own whole.1.2 part.1.2 whole.2 part.2 := by
  induction todo generalizing all all' world world' with
  | nil => exact ⟨rfl, h⟩
  | cons first rest ih =>
    obtain ⟨i, a⟩ := first
    by_cases hi : own i
    · obtain ⟨hmade, hnext⟩ := h.act hi a
      obtain ⟨hlater, hend⟩ := ih hnext
      rw [List.filter_cons_of_pos (by simpa using hi)]
      refine ⟨?_, hend⟩
      simp only [interleave, List.filter_append, filter_map_pair, if_pos hi]
      rw [hlater, hmade]
    · obtain ⟨hlater, hend⟩ := ih (h.other hsep hi a)
      rw [List.filter_cons_of_neg (by simpa using hi)]
      refine ⟨?_, hend⟩
      simp only [interleave, List.filter_append, filter_map_pair, if_neg hi, List.nil_append]
      exact hlater

/-- With acts for one run only, that run is alone. -/
theorem interleave_map (i : ι) (own : List Act) (all : ∀ i, Standing (s i).State) (world : σ) :
    interleave s (own.map (i, ·)) all world =
      let alone := (s i).acts own (all i) world
      ((alone.1.1.map (i, ·), Function.update all i alone.1.2), alone.2) := by
  induction own generalizing all world with
  | nil => simp [interleave, acts, Move.pure]
  | cons a rest ih =>
    simp only [List.map_cons, interleave, acts, ih, Function.update_self, Function.update_idem,
      List.map_append]

theorem map_entriesOf (i : ι) (entries : List (ι × β)) :
    (entriesOf i entries).map (i, ·) = entries.filter (·.1 = i) := by
  rw [entriesOf, List.map_map]
  refine (List.map_congr_left fun x hx => ?_).trans (List.map_id _)
  exact Prod.ext (of_decide_eq_true (List.mem_filter.mp hx).2).symm rfl

/-- **A run that is separate from all others** decides what it decides alone, and comes to stand in
the same place. -/
theorem interleave_alone {i : ι} (hsep : ∀ j, j ≠ i → (s i).Separate (s j)) (todo : List (ι × Act))
    (all : ∀ i, Standing (s i).State) (world : σ) :
    let whole := interleave s todo all world
    let alone := (s i).acts (entriesOf i todo) (all i) world
    entriesOf i whole.1.1 = alone.1.1 ∧ whole.1.2 i = alone.1.2 := by
  have hothers (j k : ι) (hj : j = i) (hk : ¬ k = i) : (s j).Separate (s k) := hj ▸ hsep k hk
  have hfilter := interleave_filter hothers todo (.refl s _ all world)
  rw [← map_entriesOf i todo, interleave_map] at hfilter
  obtain ⟨hmade, hend⟩ := hfilter
  refine ⟨?_, ?_⟩
  · rw [entriesOf, hmade, List.map_map]
    exact List.map_id _
  · exact (hend.standing i rfl).trans (Function.update_self ..)

end Runs

/-- Two runs that draw from one source, here a count, are not separate: the second one draws what is
left by the first. -/
example :
    let draw : Duration → Duration → Nat → Duration × Nat := fun _ _ n => (.ofNanos n, n + 1)
    let s : Bool → Schedule Nat := fun _ => (spaced 0).jitter (.between 0 0) draw
    entriesOf true (interleave s [(false, .step), (true, .step)] (fun i => (s i).fresh) 0).1.1 =
        [.runAfter (.ofNanos 1)] ∧
      ((s true).acts [.step] (s true).fresh 0).1.1 = [.runAfter (.ofNanos 0)] :=
  ⟨rfl, rfl⟩

end Schedule

end Cadence
