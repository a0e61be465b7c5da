import Mathlib.Data.Option.NAry
import Cadence.Expr.Basic
import Cadence.Proofs.Run.DryRun
import Cadence.Proofs.Schedule.Counting

/-!
# How often an expression continues

For schedules without an occasion and without a budget, the number of decisions that continue can be
read off the expression: it does not depend on any delay, so neither on what is drawn nor on the
time.

## Scope

Nothing is assumed of the sources: an expression is taken together with any functions that draw and
that read clocks, in any world. The number may be infinite, or finite but too large to be counted.
Such schedules never complete.

## Main definitions

* `Readings`, `Expr.scheduleIn` — the schedule of an expression over arbitrary sources
* `Expr.continuations?` — how often an expression continues
* `Schedule.ContinuesTimes` — a schedule continues so many times and is then complete

## Main results

* `Expr.continuesBelow` — the bound of the schedule of an expression
* `Expr.continuesTimes` — how often it continues in dry runs and in runs
-/

namespace Cadence

variable {σ : Type}

/-! ### Arbitrary sources -/

/-- How sources of randomness are drawn on and clocks are read in a world `σ`. -/
structure Readings (σ : Type) where
  /-- Draws a number from zero up to one. -/
  unit : SourceName → σ → Float × σ
  /-- Draws a duration from a range. -/
  uniformDuration : SourceName → Duration → Duration → σ → Duration × σ
  /-- Reads a clock. -/
  now : Nat → σ → Instant × σ

/-- Draws and readings in the world of named sources. -/
def Sources.readings : Readings Sources := ⟨Sources.unit, Sources.uniformDuration, Sources.now⟩

namespace Expr

/-- The schedule that an expression stands for, over given sources. -/
def scheduleIn (readings : Readings σ) : Expr → Schedule σ
  | once => .once
  | forever => .forever
  | recurs times => .recurs times
  | spaced delay => .spaced delay
  | linear seed factor => .linear seed factor
  | exponential seed factor => .exponential seed factor
  | fibonacci seed => .fibonacci seed
  | fromDurations delays => .fromDurations delays
  | decorrelated a b source => .decorrelated a b (readings.uniformDuration source)
  | smoothDecorrelated median source => .smoothDecorrelated median (readings.unit source)
  | fixed interval clock => .fixed interval (readings.now clock)
  | windowed interval clock => .windowed interval (readings.now clock)
  | onOccasion occasion clock => .onOccasion occasion (readings.now clock)
  | union l r => (l.scheduleIn readings).union (r.scheduleIn readings)
  | intersect l r => (l.scheduleIn readings).intersect (r.scheduleIn readings)
  | andThen first second => (first.scheduleIn readings).andThen (second.scheduleIn readings)
  | maxDelay inner limit => (inner.scheduleIn readings).maxDelay limit
  | maxCumulativeDelay inner limit => (inner.scheduleIn readings).maxCumulativeDelay limit
  | noDelayOnFirstRetry inner => (inner.scheduleIn readings).noDelayOnFirstRetry
  | jitter inner spread source =>
    (inner.scheduleIn readings).jitter spread (readings.uniformDuration source)
  | boxed inner => (inner.scheduleIn readings).boxed

/-- The schedule of an expression is the one over the named sources. -/
theorem scheduleIn_readings (e : Expr) : e.scheduleIn Sources.readings = e.schedule := by
  induction e with
  | union l r hl hr => rw [scheduleIn, schedule, hl, hr]
  | intersect l r hl hr => rw [scheduleIn, schedule, hl, hr]
  | andThen first second hfirst hsecond => rw [scheduleIn, schedule, hfirst, hsecond]
  | maxDelay inner limit ih => rw [scheduleIn, schedule, ih]
  | maxCumulativeDelay inner limit ih => rw [scheduleIn, schedule, ih]
  | noDelayOnFirstRetry inner ih => rw [scheduleIn, schedule, ih]
  | jitter inner spread source ih =>
    rw [scheduleIn, schedule, ih]
    rfl
  | boxed inner ih => rw [scheduleIn, schedule, ih]
  | _ => rfl

/-! ### How often an expression continues -/

/-- How often an expression continues, if that can be read off it. It cannot with an occasion or a
budget. -/
noncomputable def continuations? : Expr → Option ℕ∞
  | once => some 0
  | recurs times => some times
  | fromDurations delays => some delays.length
  | forever | spaced _ | linear _ _ | exponential _ _ | fibonacci _ | decorrelated _ _ _
  | smoothDecorrelated _ _ | fixed _ _ | windowed _ _ => some ⊤
  | union l r | intersect l r => Option.map₂ min l.continuations? r.continuations?
  | andThen first second => Option.map₂ (· + ·) first.continuations? second.continuations?
  | maxDelay inner _ | noDelayOnFirstRetry inner | jitter inner _ _ | boxed inner =>
    inner.continuations?
  | onOccasion _ _ | maxCumulativeDelay _ _ => none

/-- **The bound of an expression**, whatever the sources are. -/
theorem continuesBelow (readings : Readings σ) {e : Expr} {n : ℕ∞} (h : e.continuations? = some n) :
    (e.scheduleIn readings).ContinuesBelow n := by
  induction e generalizing n with
  | once =>
    obtain rfl := Option.some.inj h
    exact Schedule.continuesBelow_once
  | recurs times =>
    obtain rfl := Option.some.inj h
    exact Schedule.continuesBelow_recurs times
  | fromDurations delays =>
    obtain rfl := Option.some.inj h
    exact Schedule.continuesBelow_fromDurations delays
  | smoothDecorrelated median source =>
    obtain rfl := Option.some.inj h
    exact (Schedule.endless_smoothDecorrelated median _).continuesBelow
  | fixed interval clock =>
    obtain rfl := Option.some.inj h
    exact (Schedule.endless_fixed interval _).continuesBelow
  | windowed interval clock =>
    obtain rfl := Option.some.inj h
    exact (Schedule.endless_windowed interval _).continuesBelow
  | union l r hl hr =>
    obtain ⟨m, n, hm, hn, rfl⟩ := Option.map₂_eq_some_iff.mp h
    exact (hl hm).union (hr hn)
  | intersect l r hl hr =>
    obtain ⟨m, n, hm, hn, rfl⟩ := Option.map₂_eq_some_iff.mp h
    exact (hl hm).intersect (hr hn)
  | andThen first second hfirst hsecond =>
    obtain ⟨m, n, hm, hn, rfl⟩ := Option.map₂_eq_some_iff.mp h
    exact (hfirst hm).andThen (hsecond hn)
  | maxDelay inner limit ih => exact (ih h).maxDelay limit
  | noDelayOnFirstRetry inner ih => exact (ih h).noDelayOnFirstRetry
  | jitter inner spread source ih => exact (ih h).jitter spread _
  | boxed inner ih => exact (ih h).boxed
  | onOccasion occasion clock => exact nomatch h
  | maxCumulativeDelay inner limit => exact nomatch h
  | _ =>
    -- the step of every other leaf continues
    obtain rfl := Option.some.inj h
    exact (Schedule.endless_of_step fun _ _ _ => rfl).continuesBelow

end Expr

/-! ### In dry runs and in runs -/

/-- A schedule continues `k` times from a fresh start and is then complete, in dry runs and in runs
in which it is asked after every outcome. -/
structure Schedule.ContinuesTimes (s : Schedule σ) (world : σ) (k : Nat) : Prop where
  /-- A dry run that is long enough shows `k` decisions that continue, and one that is complete. -/
  decisions : ∀ n, k < n → ∃ ds, ds.length = k ∧ (∀ d ∈ ds, d.continues = true) ∧
    ((s.dryRun world).decisions n).1 = ds ++ [.complete]
  /-- If the operation accepts every outcome and nobody cancels the session, a run ends, and
  whenever it does the effect was called once more than that. -/
  calls : ∀ {α ε τ β : Type} (op : Operation α ε τ β) (effect : Nat → Call α ε)
    (runner : Runner α ε) (session : Session) (driver : Driver),
    let r : Run σ α ε τ β := ⟨op, s.policy, effect, runner, session, world⟩
    (∀ i, r.Accepts i) → (∀ n, (r.upTo driver n).cycle.session.cancelled = false) →
      (∃ d, r.Ends driver d) ∧
        ∀ d, r.Ends driver d → (Happening.outcomes d.trace).length = k + 1

/-- A schedule never completes, and the same runs never end. -/
structure Schedule.NeverStops (s : Schedule σ) (world : σ) : Prop where
  /-- No dry run reaches a decision that is complete. -/
  decisions : ¬ s.Completes world
  /-- No run ends in which the operation accepts every outcome and nobody cancels the session. -/
  calls : ∀ {α ε τ β : Type} (op : Operation α ε τ β) (effect : Nat → Call α ε)
    (runner : Runner α ε) (session : Session) (driver : Driver),
    let r : Run σ α ε τ β := ⟨op, s.policy, effect, runner, session, world⟩
    (∀ i, r.Accepts i) → (∀ n, (r.upTo driver n).cycle.session.cancelled = false) →
      ¬ ∃ d, r.Ends driver d

namespace Schedule

variable {s : Schedule σ} {world : σ}

theorem continuesTimes_of_completesAt {k : Nat} (h : s.CompletesAt world k) :
    s.ContinuesTimes world k where
  decisions n hn := by
    refine ⟨(List.range k).map (s.decisionAt world), by simp, ?_, ?_⟩
    · intro d hd
      obtain ⟨i, hi, rfl⟩ := List.mem_map.mp hd
      exact h.1 i (List.mem_range.mp hi)
    · rw [DryRun.decisions_of_completesAt h hn, List.range_succ, List.map_append]
      exact congrArg (_ ++ [·]) h.2
  calls := by
    intro α ε τ β op effect runner session driver r haccepts hnever
    have hs : ∀ i, r.decision i = s.decisionAt r.world i := s.policy_decisionAt world _
    have hlast : r.LastCall k := Run.lastCall_of_completesAt hs haccepts hnever h
    refine ⟨⟨_, hlast.ends_iff.mpr rfl⟩, fun d hd => ?_⟩
    obtain rfl := hlast.ends_iff.mp hd
    rw [Run.outcomes_finish, List.length_map, List.length_range]

theorem neverStops_of_not_completes (h : ¬ s.Completes world) : s.NeverStops world where
  decisions := h
  calls := by
    intro α ε τ β op effect runner session driver r haccepts hnever
    have hs : ∀ i, r.decision i = s.decisionAt r.world i := s.policy_decisionAt world _
    rw [Run.exists_ends_iff_completes hs haccepts hnever]
    exact h

end Schedule

namespace Expr

/-- **How often an expression continues**, whatever is drawn and whatever the time is: as often as
can be read off it. If that is more than can be counted, or without end, it never completes. The
schedule that it stands for is the case of the named sources. -/
theorem continuesTimes (e : Expr) {n : ℕ∞} (h : e.continuations? = some n) :
    e.schedule = e.scheduleIn Sources.readings ∧
    ∀ {σ : Type} (readings : Readings σ) (world : σ),
      (∀ k : Nat, n = k → k ≤ maxCount → (e.scheduleIn readings).ContinuesTimes world k) ∧
        (maxCount < n → (e.scheduleIn readings).NeverStops world) := by
  refine ⟨e.scheduleIn_readings.symm, fun readings world => ?_⟩
  have hbound := continuesBelow readings h
  refine ⟨?_, fun hlt => ?_⟩
  · rintro k rfl hk
    exact Schedule.continuesTimes_of_completesAt (hbound.completesAt hk world)
  · exact Schedule.neverStops_of_not_completes (hbound.not_completes hlt world)

/-- A nested expression over draws that never repeat and a clock that stands still, and the same
with one of its parts replaced by a schedule without end. -/
theorem continuesTimes_nested :
    let readings : Readings Nat :=
      ⟨fun _ n => (0, n + 1), fun _ a _ n => (a, n + 1), fun _ n => (.epoch, n)⟩
    let spread : Spread := .between (.ofMillis 1) (.ofMillis 2)
    let first : Expr := .union (.jitter (.recurs 2) spread .shared) (.fixed (.ofSeconds 1) 0)
    let second : Expr := .noDelayOnFirstRetry (.fromDurations [.ofSeconds 1, .ofSeconds 2])
    let e : Expr := .intersect (.andThen first second) (.spaced (.ofSeconds 1))
    e.continuations? = some (2 + 2) ∧ (e.scheduleIn readings).ContinuesTimes 0 4 ∧
      (Expr.andThen e (.windowed (.ofSeconds 1) 0)).continuations? = some ⊤ ∧
      ((Expr.andThen e (.windowed (.ofSeconds 1) 0)).scheduleIn readings).NeverStops 0 := by
  intro readings spread first second e
  have he : e.continuations? = some (2 + 2) := by
    simp [e, first, second, continuations?]
  have hendless : (Expr.andThen e (.windowed (.ofSeconds 1) 0)).continuations? = some ⊤ := by
    simp [continuations?, he]
  exact ⟨he, ((continuesTimes e he).2 readings 0).1 4 rfl (by decide), hendless,
    ((continuesTimes _ hendless).2 readings 0).2 (ENat.natCast_lt_top _)⟩

end Expr

end Cadence
