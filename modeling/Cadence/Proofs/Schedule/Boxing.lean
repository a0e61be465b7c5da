import Cadence.Proofs.Schedule.Interleaving
import Cadence.Proofs.Schedule.SideBySide

/-!
# Schedules in places

A schedule can have its state held in a place, and so can any part of a schedule that is put
together of others. A step takes the state out of its place and puts the next one back, so between
two steps no place is empty, and nobody can tell whether there are places at all. That is so for one
run, and for any number of runs that are stepped in any order in one world: each makes the decisions
it makes without places, and draws the same from the sources that they share.

## Scope

What is decided with an empty place is left open: for each place it may be anything, and it makes no
difference. That the work is then complete is one case of it.

A copy of a schedule is the same value, so runs of copies are runs of one schedule, and any copy can
step the state of another. A run can be given a fresh state or another context at any time, and it
can be stepped on after it is complete.

## Main definitions

* `Schedule.boxedOr` — a schedule with its state held in a place, and what is decided without it
* `Schedule.Boxing` — one schedule is another one with some of its parts in places
* `Schedule.Boxing.holds`, `Schedule.Boxing.Full` — a state with all places full
* `Schedule.InStep` — the same comes of all that is done with runs of two families of schedules
* `Schedule.Boxing.Unseen` — nobody can tell which parts are in places

## Main results

* `Schedule.Mirrors.interleave` — runs side by side cannot be told from those of mirror images
* `Schedule.Boxing.mirrors` — with some of its parts in places, a schedule is a mirror image
* `Schedule.Boxing.unseen` — nobody can tell which parts are in places
-/

namespace Cadence

variable {σ τ υ τ' υ' : Type}

/-- Where a run stands, with the state of its schedule changed by `f`. -/
def Standing.map (f : τ → υ) (own : Standing τ) : Standing υ := ⟨f own.state, own.context⟩

namespace Schedule

/-- The state of two schedules one after the other, with their states changed by `f` and `g`. -/
def Stage.map (f : τ → τ') (g : υ → υ') : Stage τ υ → Stage τ' υ'
  | .first state => .first (f state)
  | .second state origin => .second (g state) origin

/-- The schedule with its state held in a place that can be empty. A step takes the state out and
puts the next one back; with an empty place `spare` decides. -/
def boxedOr (spare : Context → Move σ Decision) (s : Schedule σ) : Schedule σ where
  State := Option s.State
  start := some s.start
  step
    | none, context, world =>
      let made := spare context world
      ⟨made.1, none, made.2⟩
    | some state, context, world =>
      let made := s.step state context world
      ⟨made.decision, some made.state, made.world⟩

/-- A schedule in a place is complete when the place is empty. -/
theorem boxedOr_complete (s : Schedule σ) :
    s.boxedOr (fun _ => Move.pure .complete) = s.boxed := rfl

/-! ### Mirror images of what is put together -/

namespace Mirrors

variable {s t a b a' b' : Schedule σ} {f : s.State → t.State} {g : a.State → a'.State}
  {g' : b.State → b'.State}

theorem refl (s : Schedule σ) : s.Mirrors s id := ⟨rfl, fun _ _ _ => rfl⟩

/-- A state that is taken out of its place is put back. -/
theorem boxedOr (h : s.Mirrors t f) (spare : Context → Move σ Decision) :
    s.Mirrors (t.boxedOr spare) fun state => some (f state) where
  start := congrArg some h.start
  step state context world := by
    show Step.mapState some (t.step (f state) context world) = _
    rw [h.step]
    rfl

theorem sideBySide (merge : Decision → Decision → Decision) (ha : a.Mirrors a' g)
    (hb : b.Mirrors b' g') :
    (sideBySide merge a b).Mirrors (sideBySide merge a' b') (Prod.map g g') where
  start := Prod.ext ha.start hb.start
  step := by
    rintro ⟨x, y⟩ context world
    simp only [Schedule.sideBySide, Prod.map, ha.step, hb.step, Step.mapState]

/-- A step of the second schedule. -/
theorem stepSecond (hb : b.Mirrors b' g') (state : b.State) (origin context : Context) (world : σ) :
    (b'.stepSecond (g' state) origin context world : Step (Stage a'.State b'.State) σ) =
      (b.stepSecond state origin context world).mapState (Stage.map g g') := by
  simp only [Schedule.stepSecond, hb.step, Step.mapState, Stage.map]

/-- The second schedule is started in the same step in both, since the first is complete in the same
step. -/
theorem andThen (ha : a.Mirrors a' g) (hb : b.Mirrors b' g') :
    (a.andThen b).Mirrors (a'.andThen b') (Stage.map g g') where
  start := congrArg Stage.first ha.start
  step state context world := by
    cases state with
    | first x =>
      simp only [Schedule.andThen, Stage.map, ha.step, hb.start]
      show (if (a.step x context world).decision.isComplete then _ else _) = _
      split
      · exact hb.stepSecond b.start context context _
      · rfl
    | second y origin => exact hb.stepSecond y origin context world

theorem maxDelay (h : s.Mirrors t f) (limit : Duration) :
    (s.maxDelay limit).Mirrors (t.maxDelay limit) f where
  start := h.start
  step (state : s.State) context world := by
    simp only [Schedule.maxDelay, h.step, Step.mapState]

theorem maxCumulativeDelay (h : s.Mirrors t f) (limit : Duration) :
    (s.maxCumulativeDelay limit).Mirrors (t.maxCumulativeDelay limit) f where
  start := h.start
  step (state : s.State) context world := by
    simp only [Schedule.maxCumulativeDelay, h.step]
    by_cases hspent : limit ≤ context.elapsed
    · rw [if_pos hspent, if_pos hspent]
      rfl
    · rw [if_neg hspent, if_neg hspent]
      generalize s.step state context world = made
      obtain ⟨decision, next, world⟩ := made
      cases hdelay : decision.delay? with
      | none => simp only [Step.mapState, hdelay]
      | some delay =>
        simp only [Step.mapState, hdelay]
        split <;> rfl

theorem noDelayOnFirstRetry (h : s.Mirrors t f) :
    s.noDelayOnFirstRetry.Mirrors t.noDelayOnFirstRetry f where
  start := h.start
  step (state : s.State) context world := by
    simp only [Schedule.noDelayOnFirstRetry, h.step, Step.mapState]
    split <;> rfl

/-- The random time is drawn from the same range, in the same world. -/
theorem jitter (h : s.Mirrors t f) (spread : Spread)
    (draw : Duration → Duration → σ → Duration × σ) :
    (s.jitter spread draw).Mirrors (t.jitter spread draw) f where
  start := h.start
  step (state : s.State) context world := by
    simp only [Schedule.jitter, h.step]
    generalize s.step state context world = made
    obtain ⟨decision, next, world⟩ := made
    cases hdelay : decision.delay? with
    | none => simp only [Step.mapState, hdelay]
    | some delay => simp only [Step.mapState, hdelay]

/-! ### Runs side by side -/

/-- One act with a run. -/
theorem act (h : s.Mirrors t f) (own : Standing s.State) (todo : Act) (world : σ) :
    t.act (own.map f) todo world =
      let made := s.act own todo world
      ((made.1.1, made.1.2.map f), made.2) := by
  cases todo with
  | restart =>
    show ((none, (⟨t.start, own.context⟩ : Standing t.State)), world) = _
    rw [h.start]
    rfl
  | reframe change => rfl
  | step =>
    simp only [Schedule.act, Standing.map, h.step]
    rfl

/-- **Runs side by side cannot be told from those of mirror images**, in whatever order something is
done with them: the same is decided in the same order, the world is the same, and each run stands
where its mirror image does. -/
theorem interleave {ι : Type} [DecidableEq ι] {s t : ι → Schedule σ}
    {f : ∀ i, (s i).State → (t i).State} (h : ∀ i, (s i).Mirrors (t i) (f i))
    (todo : List (ι × Act)) (all : ∀ i, Standing (s i).State) (world : σ) :
    Schedule.interleave t todo (fun i => (all i).map (f i)) world =
      let made := Schedule.interleave s todo all world
      ((made.1.1, fun i => (made.1.2 i).map (f i)), made.2) := by
  induction todo generalizing all world with
  | nil => rfl
  | cons first rest ih =>
    obtain ⟨i, a⟩ := first
    -- a run that is given another standing is given its image in the mirror, and no other run is
    have hnext (own : Standing (s i).State) :
        Function.update (fun j => (all j).map (f j)) i (own.map (f i)) =
          fun j => (Function.update all i own j).map (f j) :=
      funext fun j => (Function.apply_update (fun j => Standing.map (f j)) all i own j).symm
    simp only [Schedule.interleave, (h i).act, hnext, ih]

end Mirrors

/-! ### Parts in places -/

/-- The second schedule is the first one with some of its parts held in places. A part is any
schedule that is not taken apart further, or what is put together of parts. -/
inductive Boxing : Schedule σ → Schedule σ → Type 1 where
  /-- A schedule as it is. -/
  | leaf (s : Schedule σ) : Boxing s s
  /-- A part in a place. -/
  | boxedOr {s t : Schedule σ} (spare : Context → Move σ Decision) (inner : Boxing s t) :
    Boxing s (t.boxedOr spare)
  /-- Two parts side by side. -/
  | sideBySide {a b a' b' : Schedule σ} (merge : Decision → Decision → Decision)
    (left : Boxing a a') (right : Boxing b b') :
    Boxing (sideBySide merge a b) (sideBySide merge a' b')
  /-- One part after another. -/
  | andThen {a b a' b' : Schedule σ} (first : Boxing a a') (second : Boxing b b') :
    Boxing (a.andThen b) (a'.andThen b')
  /-- A part with its delays cut down. -/
  | maxDelay {s t : Schedule σ} (inner : Boxing s t) (limit : Duration) :
    Boxing (s.maxDelay limit) (t.maxDelay limit)
  /-- A part with a budget. -/
  | maxCumulativeDelay {s t : Schedule σ} (inner : Boxing s t) (limit : Duration) :
    Boxing (s.maxCumulativeDelay limit) (t.maxCumulativeDelay limit)
  /-- A part without its first delay. -/
  | noDelayOnFirstRetry {s t : Schedule σ} (inner : Boxing s t) :
    Boxing s.noDelayOnFirstRetry t.noDelayOnFirstRetry
  /-- A part with random times. -/
  | jitter {s t : Schedule σ} (inner : Boxing s t) (spread : Spread)
    (draw : Duration → Duration → σ → Duration × σ) :
    Boxing (s.jitter spread draw) (t.jitter spread draw)

namespace Boxing

variable {s t : Schedule σ}

/-- A part in a place, which is complete when the place is empty. -/
def boxed (inner : Boxing s t) : Boxing s t.boxed :=
  .boxedOr (fun _ => Move.pure .complete) inner

/-- A state with all places full. -/
def holds {s t : Schedule σ} : Boxing s t → s.State → t.State
  | leaf _ => id
  | boxedOr _ inner => fun state => some (inner.holds state)
  | sideBySide _ left right => Prod.map left.holds right.holds
  | andThen first second => Stage.map first.holds second.holds
  | maxDelay inner _ => inner.holds
  | maxCumulativeDelay inner _ => inner.holds
  | noDelayOnFirstRetry inner => inner.holds
  | jitter inner _ _ => inner.holds

/-- No place is empty. -/
def Full {s t : Schedule σ} : Boxing s t → t.State → Prop
  | leaf _ => fun _ => True
  | boxedOr _ inner => fun state => ∃ held, state = some held ∧ inner.Full held
  | sideBySide _ left right => fun state => left.Full state.1 ∧ right.Full state.2
  | andThen first second => fun
    | .first state => first.Full state
    | .second state _ => second.Full state
  | maxDelay inner _ => inner.Full
  | maxCumulativeDelay inner _ => inner.Full
  | noDelayOnFirstRetry inner => inner.Full
  | jitter inner _ _ => inner.Full

theorem full_holds (h : Boxing s t) (state : s.State) : h.Full (h.holds state) := by
  induction h with
  | leaf s => trivial
  | boxedOr spare inner ih => exact ⟨_, rfl, ih state⟩
  | sideBySide merge left right hleft hright => exact ⟨hleft state.1, hright state.2⟩
  | andThen first second hfirst hsecond =>
    cases state with
    | first x => exact hfirst x
    | second y origin => exact hsecond y
  | maxDelay inner limit ih => exact ih state
  | maxCumulativeDelay inner limit ih => exact ih state
  | noDelayOnFirstRetry inner ih => exact ih state
  | jitter inner spread draw ih => exact ih state

/-- **With some of its parts in places, a schedule is a mirror image**: every step takes each state
that it needs out of a full place and leaves a full place behind. -/
theorem mirrors (h : Boxing s t) : s.Mirrors t h.holds := by
  induction h with
  | leaf s => exact .refl s
  | boxedOr spare inner ih => exact ih.boxedOr spare
  | sideBySide merge left right hleft hright => exact hleft.sideBySide merge hright
  | andThen first second hfirst hsecond => exact hfirst.andThen hsecond
  | maxDelay inner limit ih => exact ih.maxDelay limit
  | maxCumulativeDelay inner limit ih => exact ih.maxCumulativeDelay limit
  | noDelayOnFirstRetry inner ih => exact ih.noDelayOnFirstRetry
  | jitter inner spread draw ih => exact ih.jitter spread draw

end Boxing

/-! ### Nobody can tell -/

section Runs

variable {ι : Type} [DecidableEq ι] {s t u : ι → Schedule σ}

/-- Whatever is done with fresh runs of some schedules in one world, the same comes of it with fresh
runs of other ones in their place. -/
structure InStep (s t : ι → Schedule σ) : Prop where
  /-- The runs make the same decisions in the same order. -/
  decisions : ∀ todo world,
    (interleave s todo (fun i => (s i).fresh) world).1.1 =
      (interleave t todo (fun i => (t i).fresh) world).1.1
  /-- They leave the same world. -/
  world : ∀ todo world,
    (interleave s todo (fun i => (s i).fresh) world).2 =
      (interleave t todo (fun i => (t i).fresh) world).2
  /-- They come to the same contexts. -/
  context : ∀ todo world i,
    ((interleave s todo (fun i => (s i).fresh) world).1.2 i).context =
      ((interleave t todo (fun i => (t i).fresh) world).1.2 i).context

theorem InStep.symm (h : InStep s t) : InStep t s where
  decisions todo world := (h.decisions todo world).symm
  world todo world := (h.world todo world).symm
  context todo world i := (h.context todo world i).symm

theorem InStep.trans (h : InStep s t) (h' : InStep t u) : InStep s u where
  decisions todo world := (h.decisions todo world).trans (h'.decisions todo world)
  world todo world := (h.world todo world).trans (h'.world todo world)
  context todo world i := (h.context todo world i).trans (h'.context todo world i)

namespace Boxing

/-- Nobody can tell which parts of some schedules are in places. -/
structure Unseen (h : ∀ i, Boxing (s i) (t i)) : Prop extends InStep s t where
  /-- Each run has the state that it has without places, with all places full. -/
  state : ∀ todo world i,
    ((interleave t todo (fun i => (t i).fresh) world).1.2 i).state =
      (h i).holds ((interleave s todo (fun i => (s i).fresh) world).1.2 i).state
  /-- No place is ever empty. -/
  full : ∀ todo world i,
    (h i).Full ((interleave t todo (fun i => (t i).fresh) world).1.2 i).state
  /-- No dry run and no run can tell. -/
  sameCourse : ∀ i, (s i).SameCourse (t i)

theorem interleave_fresh (h : ∀ i, Boxing (s i) (t i)) (todo : List (ι × Act)) (world : σ) :
    interleave t todo (fun i => (t i).fresh) world =
      let made := interleave s todo (fun i => (s i).fresh) world
      ((made.1.1, fun i => (made.1.2 i).map (h i).holds), made.2) := by
  have hfresh : (fun i => (t i).fresh) = fun i => (s i).fresh.map (h i).holds :=
    funext fun i => congrArg (Standing.mk · _) (h i).mirrors.start
  rw [hfresh, Mirrors.interleave fun i => (h i).mirrors]

/-- **Nobody can tell which parts are in places.** -/
theorem unseen (h : ∀ i, Boxing (s i) (t i)) : Unseen h where
  decisions todo world := by rw [interleave_fresh h]
  world todo world := by rw [interleave_fresh h]
  context todo world i := by rw [interleave_fresh h]; rfl
  state todo world i := by rw [interleave_fresh h]; rfl
  full todo world i := by
    rw [interleave_fresh h]
    exact (h i).full_holds _
  sameCourse i := (h i).mirrors.sameCourse

end Boxing

end Runs

/-- If a state were lost, it would show: with an empty place the work is complete. -/
example : (forever : Schedule Unit).boxed.step none .initial () = ⟨.complete, none, ()⟩ := rfl

end Schedule

end Cadence
