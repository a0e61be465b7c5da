import Cadence.Proofs.Schedule.Always
import Cadence.Random.Source
import Cadence.Schedule.Decorrelated

/-!
# Decorrelated delays stay between their bounds

Each delay of the schedule is drawn from a range that begins at the smaller of two bounds and ends
at three times the delay before, as far as that lies between the bounds. So what is asked of the
source depends on what it gave before. Whatever that was, the range lies between the bounds; and if
the source keeps to the ranges it is asked for, so do all delays.

## Scope

Three times a delay is a floating-point product. It is nothing for a delay of nothing, it may be
rounded, and it is cut off at the longest duration; none of this matters here, since the end of the
range is brought between the bounds whatever the product is.

Nothing is assumed of a source but that a value drawn in the run lies in the range it was drawn
from, if that is not empty. What others take from the source between two draws is a matter of the
world, and so of the function that draws, which may be any.

## Main definitions

* `Drawn`, `recordDraws` — a draw, and a source that keeps a record of its draws in the world
* `Schedule.decorrelatedDraws` — the record of a run
* `Schedule.StaysBetween` — a run stays between the bounds

## Main results

* `Schedule.decorrelatedEnd_mem` — the range of a draw lies between the bounds
* `Schedule.positionIn_decorrelated_recordDraws` — a record changes nothing
* `Schedule.decorrelated_staysBetween` — delays stay between the bounds
-/

namespace Cadence

variable {σ : Type}

theorem Duration.min_le_max (a b : Duration) : min a b ≤ max a b := by
  rw [le_def, nanos_min, nanos_max]
  omega

/-! ### A record of draws -/

/-- A draw from a range. -/
structure Drawn where
  /-- Where the range begins. -/
  low : Duration
  /-- Where it ends. -/
  high : Duration
  /-- What was drawn. -/
  value : Duration

/-- The value lies in the range, if there is one. -/
def Drawn.Kept (d : Drawn) : Prop := d.low ≤ d.high → d.low ≤ d.value ∧ d.value ≤ d.high

instance (d : Drawn) : Decidable d.Kept := inferInstanceAs (Decidable (_ → _ ∧ _))

/-- A source with a record of its draws in the world. -/
def recordDraws (draw : Duration → Duration → σ → Duration × σ) (low high : Duration)
    (world : σ × List Drawn) : Duration × σ × List Drawn :=
  let drawn := draw low high world.1
  (drawn.1, drawn.2, world.2 ++ [⟨low, high, drawn.1⟩])

namespace Schedule

/-! ### One draw -/

/-- Where the range of a draw ends if three times the delay before is `tripled`. -/
def decorrelatedEnd (a b tripled : Duration) : Duration := max (min (max b a) tripled) (min a b)

/-- **The range of a draw lies between the bounds**, whatever three times the delay before is. -/
theorem decorrelatedEnd_mem (a b tripled : Duration) :
    min a b ≤ decorrelatedEnd a b tripled ∧ decorrelatedEnd a b tripled ≤ max a b := by
  simp only [decorrelatedEnd, Duration.le_def, Duration.nanos_min, Duration.nanos_max]
  omega

section Run

variable (a b : Duration) (draw : Duration → Duration → σ → Duration × σ) (world : σ)
  (contexts : Nat → Context)

/-- Draw `n` of a run in given contexts, the first being draw zero. -/
def decorrelatedDraw (n : Nat) : Drawn :=
  let pos := (decorrelated a b draw).positionIn world contexts n
  let high := decorrelatedEnd a b (Duration.scale pos.state 3.0)
  ⟨min a b, high, (draw (min a b) high pos.world).1⟩

/-- The record of the first `n` draws of a run in given contexts. -/
def decorrelatedDraws (n : Nat) : List Drawn :=
  ((decorrelated a b (recordDraws draw)).positionIn (world, []) contexts n).world.2

theorem decisionIn_decorrelated (n : Nat) :
    (decorrelated a b draw).decisionIn world contexts n =
      .runAfter (decorrelatedDraw a b draw world contexts n).value := rfl

theorem state_positionIn_decorrelated_succ (n : Nat) :
    ((decorrelated a b draw).positionIn world contexts (n + 1)).state =
      (decorrelatedDraw a b draw world contexts n).value := rfl

variable {a b draw world contexts} in
/-- What was drawn from a range between the bounds lies between them. -/
theorem value_decorrelatedDraw_mem {n : Nat}
    (h : (decorrelatedDraw a b draw world contexts n).Kept) :
    min a b ≤ (decorrelatedDraw a b draw world contexts n).value ∧
      (decorrelatedDraw a b draw world contexts n).value ≤ max a b := by
  have hrange := decorrelatedEnd_mem a b
    (Duration.scale ((decorrelated a b draw).positionIn world contexts n).state 3.0)
  have hvalue := h hrange.1
  exact ⟨hvalue.1, Duration.le_trans hvalue.2 hrange.2⟩

/-! ### A run -/

/-- **Keeping a record changes nothing** in a run, and the record holds its draws. -/
theorem positionIn_decorrelated_recordDraws (n : Nat) :
    (decorrelated a b (recordDraws draw)).positionIn (world, []) contexts n =
      let pos := (decorrelated a b draw).positionIn world contexts n
      ⟨pos.state, pos.context,
        (pos.world, (List.range n).map (decorrelatedDraw a b draw world contexts))⟩ := by
  induction n with
  | zero => rfl
  | succ n ih =>
    rw [positionIn_succ, positionIn_succ, stepIn, ih, List.range_succ, List.map_append]
    rfl

theorem decisionIn_decorrelated_recordDraws (n : Nat) :
    (decorrelated a b (recordDraws draw)).decisionIn (world, []) contexts n =
      (decorrelated a b draw).decisionIn world contexts n := by
  rw [decisionIn, stepIn, positionIn_decorrelated_recordDraws]
  rfl

theorem decorrelatedDraws_eq (n : Nat) :
    decorrelatedDraws a b draw world contexts n =
      (List.range n).map (decorrelatedDraw a b draw world contexts) := by
  rw [decorrelatedDraws, positionIn_decorrelated_recordDraws]

/-- A run of `n` steps in given contexts stays between the bounds. -/
structure StaysBetween (n : Nat) : Prop where
  /-- Keeping a record of the draws changes no decision. -/
  recorded : ∀ i, (decorrelated a b (recordDraws draw)).decisionIn (world, []) contexts i =
    (decorrelated a b draw).decisionIn world contexts i
  /-- There is one draw for each decision, which is to run again after the time that was drawn. -/
  draws : (decorrelatedDraws a b draw world contexts n).map (Decision.runAfter ·.value) =
    (List.range n).map ((decorrelated a b draw).decisionIn world contexts)
  /-- Each draw is from a range that begins at the smaller bound and ends between the bounds. -/
  asked : ∀ d ∈ decorrelatedDraws a b draw world contexts n,
    d.low = min a b ∧ d.low ≤ d.high ∧ d.high ≤ max a b
  /-- Each delay lies between the bounds. -/
  delay : ∀ i < n, let delay := ((decorrelated a b draw).decisionIn world contexts i).delay
    min a b ≤ delay ∧ delay ≤ max a b
  /-- So does each state. -/
  state : ∀ i ≤ n,
    let state : Duration := ((decorrelated a b draw).positionIn world contexts i).state
    min a b ≤ state ∧ state ≤ max a b
  /-- The state is the delay before, at first the smaller bound. -/
  state_eq : ∀ i, ((decorrelated a b draw).positionIn world contexts i).state =
    if i = 0 then min a b else ((decorrelated a b draw).decisionIn world contexts (i - 1)).delay

/-- **Decorrelated delays stay between their bounds**, which may be given in either order, in
whatever contexts the schedule is stepped and whatever is drawn, as long as each value that is drawn
lies in its range. The ranges lie between the bounds in any case. -/
theorem decorrelated_staysBetween (n : Nat)
    (hdraw : ∀ d ∈ decorrelatedDraws a b draw world contexts n, d.Kept) :
    StaysBetween a b draw world contexts n := by
  have hvalue : ∀ i < n, min a b ≤ (decorrelatedDraw a b draw world contexts i).value ∧
      (decorrelatedDraw a b draw world contexts i).value ≤ max a b := by
    intro i hi
    refine value_decorrelatedDraw_mem (hdraw _ ?_)
    rw [decorrelatedDraws_eq]
    exact List.mem_map_of_mem (List.mem_range.mpr hi)
  refine ⟨decisionIn_decorrelated_recordDraws a b draw world contexts, ?_, ?_, ?_, ?_, ?_⟩
  · rw [decorrelatedDraws_eq, List.map_map]
    exact List.map_congr_left fun i _ => (decisionIn_decorrelated a b draw world contexts i).symm
  · intro d hd
    rw [decorrelatedDraws_eq] at hd
    obtain ⟨i, -, rfl⟩ := List.mem_map.mp hd
    exact ⟨rfl, decorrelatedEnd_mem a b _⟩
  · intro i hi
    rw [decisionIn_decorrelated]
    exact hvalue i hi
  · intro i hi
    cases i with
    | zero => exact ⟨Duration.le_refl _, Duration.min_le_max a b⟩
    | succ i =>
      rw [state_positionIn_decorrelated_succ]
      exact hvalue i hi
  · intro i
    cases i with
    | zero => rfl
    | succ i => exact state_positionIn_decorrelated_succ a b draw world contexts i

end Run

/-- Four draws at three quarters of the range, the larger bound given first. Three times the delay
before the last one is beyond that bound. -/
theorem decorrelated_staysBetween_threeQuarters :
    let world : RandomSource := ⟨fun _ => 13835058055282163712, 0⟩
    let contexts : Nat → Context := fun _ => .initial
    let draw := RandomSource.uniformDuration
    let draws := decorrelatedDraws (.ofMillis 200) (.ofMillis 10) draw world contexts 4
    (∀ d ∈ draws, d.Kept) ∧
      draws.map (·.high.nanos) = [30000000, 75000000, 176250000, 200000000] ∧
      StaysBetween (.ofMillis 200) (.ofMillis 10) draw world contexts 4 := by
  intro world contexts draw draws
  have hkept : ∀ d ∈ draws, d.Kept := by decide +kernel
  exact ⟨hkept, by decide +kernel, decorrelated_staysBetween _ _ _ world contexts 4 hkept⟩

end Schedule

end Cadence
