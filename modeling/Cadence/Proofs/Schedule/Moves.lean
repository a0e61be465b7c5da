import Cadence.Schedule.Adjust
import Cadence.Schedule.Anchored
import Cadence.Schedule.Combine
import Cadence.Schedule.Decorrelated
import Cadence.Schedule.Simple

/-!
# Steps as moves in a world

A draw, a reading of a clock and a step of a schedule are all of one kind: each yields a value and
leaves a world. The step of a schedule that wraps others is put together from their steps and from
draws and readings, one after the other. So whatever is true of doing nothing, and of one move after
another when it is true of both, is true of every step as soon as it is true of the draws and the
readings.

## Main definitions

* `Move`, `Move.pure`, `Move.bind` — moves, the one that does nothing, and one after another
* `Move.Separate` — two moves have nothing to do with each other
* `Move.Composes` — what is true of moves that are put together
* `Schedule.move`, `Schedule.Moves` — the steps of a schedule as moves

## Main results

* `Move.composes_separate` — a move is separate from what is put together of separate moves
* `Schedule.Moves.sideBySide` and the lemmas beside it — one for each schedule
-/

namespace Cadence

variable {σ α β γ τ υ : Type}

/-- What yields a value and leaves a world. -/
abbrev Move (σ α : Type) : Type := σ → α × σ

namespace Move

/-- The move that does nothing, and yields a value. -/
def pure (a : α) : Move σ α := fun world => (a, world)

/-- One move, and then another one that may depend on what the first has yielded. -/
def bind (f : Move σ α) (next : α → Move σ β) : Move σ β := fun world =>
  let made := f world
  next made.1 made.2

/-- Two moves have nothing to do with each other: each yields the same whether it is the first or
the second, and they leave the same world in either order. -/
structure Separate (f : Move σ α) (g : Move σ β) : Prop where
  /-- The first yields the same after the second. -/
  left : ∀ world, (f (g world).2).1 = (f world).1
  /-- The second yields the same after the first. -/
  right : ∀ world, (g (f world).2).1 = (g world).1
  /-- The order makes no difference to the world. -/
  world : ∀ world, (g (f world).2).2 = (f (g world).2).2

theorem Separate.symm {f : Move σ α} {g : Move σ β} (h : f.Separate g) : g.Separate f :=
  ⟨h.right, h.left, fun world => (h.world world).symm⟩

/-- What is true of moves that are put together: it is true of the move that does nothing, and of
one move after another when it is true of both. -/
structure Composes (P : ∀ {α : Type}, Move σ α → Prop) : Prop where
  /-- It is true of the move that does nothing. -/
  pure : ∀ {α : Type} (a : α), P (Move.pure a)
  /-- It is true of one move after another. -/
  bind : ∀ {α β : Type} {f : Move σ α} {next : α → Move σ β}, P f → (∀ a, P (next a)) →
    P (f.bind next)

/-- What is put together of moves that are separate from another one is separate from it too. -/
theorem composes_separate (g : Move σ γ) : Composes fun f : Move σ _ => f.Separate g where
  pure _ := ⟨fun _ => rfl, fun _ => rfl, fun _ => rfl⟩
  bind {_ _ f next} hf hnext := by
    refine ⟨?_, ?_, ?_⟩
    · intro world
      show (next (f (g world).2).1 (f (g world).2).2).1 = (next (f world).1 (f world).2).1
      rw [hf.left, ← hf.world, (hnext _).left]
    · intro world
      show (g (next (f world).1 (f world).2).2).1 = (g world).1
      rw [(hnext _).right, hf.right]
    · intro world
      show (g (next (f world).1 (f world).2).2).2 = (next (f (g world).2).1 (f (g world).2).2).2
      rw [(hnext _).world, hf.left, hf.world]

/-- What is put together of moves that do nothing does nothing. -/
theorem composes_pure : Composes fun {α} (f : Move σ α) => ∃ a, f = Move.pure a where
  pure a := ⟨a, rfl⟩
  bind := by
    rintro _ _ _ next ⟨a, rfl⟩ hnext
    exact hnext a

end Move

/-! ### The steps of schedules -/

/-- A step as a move, which yields the decision and the next state. -/
def Move.ofStep (step : σ → Step τ σ) : Move σ (Decision × τ) := fun world =>
  let made := step world
  ((made.decision, made.state), made.world)

namespace Move

variable {P : ∀ {α : Type}, Move σ α → Prop}

/-- A step that is one of two, and the world has no say in which. -/
-- the instance is a family, since that of a step may still mention the world once its condition
-- does not
theorem either {c : Prop} {tell : σ → Decidable c} {f g : σ → Step τ σ} (hf : P (ofStep f))
    (hg : P (ofStep g)) : P (ofStep fun world => @ite _ c (tell world) (f world) (g world)) := by
  by_cases h : c
  · simp only [if_pos h]
    exact hf
  · simp only [if_neg h]
    exact hg

namespace Composes

/-- A step that does nothing. -/
theorem still (law : Composes P) (decision : Decision) (state : τ) :
    P (ofStep fun world => ⟨decision, state, world⟩) :=
  law.pure (decision, state)

/-- A step that is made of what a move yields. -/
theorem drawing (law : Composes P) {f : Move σ α} {k : α × σ → Step τ σ} (hf : P f)
    (hk : ∀ a, P (ofStep fun world => k (a, world))) : P (ofStep fun world => k (f world)) :=
  law.bind hf hk

/-- A step that is made of another one. -/
theorem stepping (law : Composes P) {inner : σ → Step τ σ} {k : Step τ σ → Step υ σ}
    (hinner : P (ofStep inner))
    (hk : ∀ decision state, P (ofStep fun world => k ⟨decision, state, world⟩)) :
    P (ofStep fun world => k (inner world)) :=
  law.bind hinner fun made => hk made.1 made.2

end Composes

end Move

namespace Schedule

/-- All steps of a schedule, as moves, are as `P` says. -/
def Moves (P : ∀ {α : Type}, Move σ α → Prop) (s : Schedule σ) : Prop :=
  ∀ state context, P (.ofStep (s.step state context))

section Moves

open Move

variable {P : ∀ {α : Type}, Move σ α → Prop} {s l r : Schedule σ}

/-! ### Leaves -/

theorem moves_ofContext (law : Composes P) (decide : Context → Decision) :
    (ofContext decide).Moves P :=
  fun _ context => law.still (decide context) ()

theorem moves_fibonacci (law : Composes P) (seed : Duration) : (fibonacci seed).Moves P :=
  fun state _ => law.still (.runAfter state.2) (state.2, state.1 + state.2)

theorem moves_decorrelated (law : Composes P) (a b : Duration)
    {draw : Duration → Duration → Move σ Duration} (h : ∀ low high, P (draw low high)) :
    (decorrelated a b draw).Moves P := by
  intro previous _
  refine law.drawing (k := fun drawn => ⟨.runAfter drawn.1, drawn.1, drawn.2⟩) (h _ _) ?_
  intro drawn
  exact law.still (.runAfter drawn) drawn

theorem moves_smoothDecorrelated (law : Composes P) (median : Duration) {unit : Move σ Float}
    (h : P unit) : (smoothDecorrelated median unit).Moves P := by
  intro (previous : Float) context
  refine law.drawing (k := fun drawn =>
    let height := smoothCurve (Float.ofNat context.iteration + drawn.1)
    if height.isFinite then
      ⟨.runAfter (median.scale ((height - previous) * (1.0 / 1.4))), height, drawn.2⟩
    else ⟨.runAfter .longest, previous, drawn.2⟩) h ?_
  intro drawn
  dsimp only
  exact either (law.still _ (smoothCurve (Float.ofNat context.iteration + drawn)))
    (law.still (.runAfter .longest) previous)

theorem moves_windowed (law : Composes P) (interval : Duration) {now : Move σ Instant} (h : P now) :
    (windowed interval now).Moves P := by
  intro state context
  refine either (law.still .runAgain state) ?_
  cases state with
  | none =>
    exact law.drawing (k := fun reading => ⟨.runAfter interval, some reading.1, reading.2⟩) h
      fun reading => law.still (.runAfter interval) (some reading)
  | some start =>
    exact law.drawing (k := fun reading =>
        ⟨.runAfter (untilBoundary start reading.1 interval), some start, reading.2⟩) h
      fun reading => law.still (.runAfter (untilBoundary start reading interval)) (some start)

theorem moves_fixed (law : Composes P) (interval : Duration) {now : Move σ Instant} (h : P now) :
    (fixed interval now).Moves P := by
  intro state context
  refine either (law.still .runAgain state) ?_
  cases state with
  | none =>
    exact law.drawing (k := fun reading =>
        ⟨.runAfter interval, some (Anchor.mk reading.1 (reading.1.after interval)), reading.2⟩) h
      fun reading => law.still _ (some (Anchor.mk reading (reading.after interval)))
  | some anchor =>
    refine law.drawing (k := fun reading =>
      if anchor.planned.after interval < reading.1 then
        ⟨.runAgain, some (Anchor.mk anchor.start reading.1), reading.2⟩
      else
        let delay := untilBoundary anchor.start reading.1 interval
        ⟨.runAfter delay, some (Anchor.mk anchor.start (reading.1.after delay)), reading.2⟩) h ?_
    intro reading
    dsimp only
    exact either (law.still .runAgain (some (Anchor.mk anchor.start reading)))
      (law.still _ (some (Anchor.mk anchor.start _)))

theorem moves_onOccasion (law : Composes P) (occasion : Occasion) {now : Move σ Instant}
    (h : P now) : (onOccasion occasion now).Moves P := by
  rintro ⟨⟩ context
  have hstep : (onOccasion occasion now).step () context = fun world =>
      (onOccasion occasion fun _ => now world).step () context (now world).2 := by
    funext world
    rfl
  rw [hstep]
  refine law.drawing (k := fun reading =>
    (onOccasion occasion fun _ => reading).step () context reading.2) h ?_
  intro reading
  simp only [onOccasion]
  cases occasion.next? reading with
  | none => exact law.still .complete ()
  | some time => exact law.still (.runAfter (reading.elapsed time)) ()

/-! ### Combining two schedules

The step of a schedule that wraps another one is made of the step of that one. To say how, the other
one is replaced by a schedule that has this step only. -/

/-- The schedule whose only step is a given one. -/
def withStep (s : Schedule σ) (made : Step s.State σ) : Schedule σ :=
  { s with step := fun _ _ _ => made }

theorem Moves.sideBySide (law : Composes P) (merge : Decision → Decision → Decision)
    (hl : l.Moves P) (hr : r.Moves P) : (l.sideBySide merge r).Moves P := by
  intro state context
  refine law.stepping (υ := l.State × r.State) (k := fun left =>
    ((l.withStep left).sideBySide merge r).step state context left.world) (hl state.1 context) ?_
  intro decision next
  refine law.stepping (k := fun right =>
    ⟨merge decision right.decision, (next, right.state), right.world⟩) (hr state.2 context) ?_
  intro decision' next'
  exact law.still (merge decision decision') (next, next')

theorem Moves.stepSecond (law : Composes P) (h : s.Moves P) (state : s.State)
    (origin context : Context) : P (ofStep (s.stepSecond (τ := τ) state origin context)) := by
  refine law.stepping (υ := Stage τ s.State) (k := fun made =>
    (s.withStep made).stepSecond state origin context made.world) (h state _) ?_
  intro decision next
  exact law.still decision (Stage.second next origin)

theorem Moves.andThen (law : Composes P) (hl : l.Moves P) (hr : r.Moves P) :
    (l.andThen r).Moves P := by
  intro state context
  cases state with
  | second state origin => exact hr.stepSecond law state origin context
  | first state =>
    refine law.stepping (υ := Stage l.State r.State) (k := fun made =>
      ((l.withStep made).andThen r).step (.first state) context made.world) (hl state context) ?_
    intro decision next
    simp only [Schedule.andThen, withStep]
    exact either (hr.stepSecond law r.start context context)
      (law.still decision (Stage.first next))

/-! ### Adjusting one schedule -/

theorem Moves.boxed (law : Composes P) (h : s.Moves P) : s.boxed.Moves P := by
  intro place context
  cases place with
  | none => exact law.still .complete none
  | some state =>
    refine law.stepping (υ := Option s.State) (k := fun made =>
      (s.withStep made).boxed.step (some state) context made.world) (h state context) ?_
    intro decision next
    exact law.still decision (some next)

theorem Moves.maxDelay (law : Composes P) (limit : Duration) (h : s.Moves P) :
    (s.maxDelay limit).Moves P := by
  intro state context
  refine law.stepping (k := fun made =>
    ((s.withStep made).maxDelay limit).step state context made.world) (h state context) ?_
  intro decision next
  exact law.still (decision.cap limit) next

theorem Moves.maxCumulativeDelay (law : Composes P) (limit : Duration) (h : s.Moves P) :
    (s.maxCumulativeDelay limit).Moves P := by
  intro state context
  by_cases hspent : limit ≤ context.elapsed
  · simp only [Schedule.maxCumulativeDelay, if_pos hspent]
    exact law.still .complete state
  · have hstep : (s.maxCumulativeDelay limit).step state context = fun world =>
        ((s.withStep (s.step state context world)).maxCumulativeDelay limit).step state context
          (s.step state context world).world := by
      funext world
      simp only [Schedule.maxCumulativeDelay, if_neg hspent]
      rfl
    rw [hstep]
    refine law.stepping (k := fun made =>
      ((s.withStep made).maxCumulativeDelay limit).step state context made.world)
      (h state context) ?_
    intro decision next
    simp only [Schedule.maxCumulativeDelay, withStep, if_neg hspent]
    cases decision.delay? with
    | none => exact law.still decision next
    | some delay => exact either (law.still .complete next) (law.still decision next)

theorem Moves.noDelayOnFirstRetry (law : Composes P) (h : s.Moves P) :
    s.noDelayOnFirstRetry.Moves P := by
  intro state context
  refine law.stepping (k := fun made =>
    (s.withStep made).noDelayOnFirstRetry.step state context made.world) (h state context) ?_
  intro decision next
  simp only [Schedule.noDelayOnFirstRetry, withStep]
  exact either (law.still .runAgain next) (law.still decision next)

theorem Moves.jitter (law : Composes P) (spread : Spread)
    {draw : Duration → Duration → Move σ Duration} (h : s.Moves P)
    (hdraw : ∀ low high, P (draw low high)) : (s.jitter spread draw).Moves P := by
  intro state context
  refine law.stepping (k := fun made =>
    ((s.withStep made).jitter spread draw).step state context made.world) (h state context) ?_
  intro decision next
  simp only [Schedule.jitter, withStep]
  cases decision.delay? with
  | none => exact law.still decision next
  | some delay =>
    refine law.drawing (k := fun drawn => ⟨.runAfter (delay + drawn.1), next, drawn.2⟩)
      (hdraw _ _) ?_
    intro drawn
    exact law.still (.runAfter (delay + drawn)) next

end Moves

end Schedule

end Cadence
