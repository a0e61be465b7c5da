import Cadence.Proofs.Expr.Continuations
import Cadence.Proofs.Schedule.ByCount

/-!
# Expressions that pay no attention to delays

A budget is the only part of an expression that adds up the delays of a run. Without one an
expression decides by the number of decisions, whatever is drawn and whatever the time is. Its first
delay can then be left out with no effect on what follows.

## Main definitions

* `Expr.hasBudget` — whether an expression contains a budget

## Main results

* `Expr.byCount` — an expression without a budget decides by the number of decisions
* `Expr.losesOnlyFirstDelay` — what that means in dry runs and in given contexts
-/

namespace Cadence.Expr

variable {σ : Type}

/-- Whether an expression contains a budget. -/
def hasBudget : Expr → Bool
  | maxCumulativeDelay _ _ => true
  | union l r | intersect l r | andThen l r => l.hasBudget || r.hasBudget
  | maxDelay inner _ | noDelayOnFirstRetry inner | jitter inner _ _ | boxed inner => inner.hasBudget
  | _ => false

/-- **An expression without a budget decides by the number of decisions**, over any sources. -/
theorem byCount (readings : Readings σ) {e : Expr} (h : e.hasBudget = false) :
    (e.scheduleIn readings).ByCount := by
  induction e with
  | recurs times => exact Schedule.byCount_ofContext fun hc => by rw [hc]
  | linear seed factor => exact Schedule.byCount_ofContext fun hc => by rw [hc]
  | exponential seed factor => exact Schedule.byCount_ofContext fun hc => by rw [hc]
  | fromDurations delays => exact Schedule.byCount_ofContext fun hc => by rw [hc]
  | smoothDecorrelated median source => exact Schedule.byCount_smoothDecorrelated median _
  | union l r hl hr =>
    obtain ⟨hleft, hright⟩ := Bool.or_eq_false_iff.mp h
    exact (hl hleft).sideBySide _ (hr hright)
  | intersect l r hl hr =>
    obtain ⟨hleft, hright⟩ := Bool.or_eq_false_iff.mp h
    exact (hl hleft).sideBySide _ (hr hright)
  | andThen first second hfirst hsecond =>
    obtain ⟨hleft, hright⟩ := Bool.or_eq_false_iff.mp h
    exact (hfirst hleft).andThen (hsecond hright)
  | maxDelay inner limit ih => exact (ih h).maxDelay limit
  | noDelayOnFirstRetry inner ih => exact (ih h).noDelayOnFirstRetry
  | jitter inner spread source ih => exact (ih h).jitter spread _
  | boxed inner ih => exact (ih h).boxed
  | maxCumulativeDelay inner limit => exact nomatch h
  | _ =>
    -- every other leaf decides without the context
    exact Schedule.byCount_of_step fun _ _ _ _ _ => rfl

/-- **Only the first delay is lost.** Without a budget in it, whatever is drawn and whatever the
time is, an expression makes the same decisions as before if its first delay is left out, apart from
that one. In any two sequences of contexts that count alike, it decides the same. The schedule that
it stands for is the case of the named sources. -/
theorem losesOnlyFirstDelay (e : Expr) (h : e.hasBudget = false) :
    e.schedule = e.scheduleIn Sources.readings ∧
    ∀ {σ : Type} (readings : Readings σ) (world : σ),
      (e.scheduleIn readings).LosesFirstDelay (e.noDelayOnFirstRetry.scheduleIn readings) world ∧
        ∀ contexts contexts' : Nat → Context, (∀ n, (contexts n).CountAlike (contexts' n)) →
          (e.scheduleIn readings).DecidesByCount world contexts contexts' := by
  refine ⟨e.scheduleIn_readings.symm, fun readings world => ?_⟩
  have hcount := byCount readings h
  exact ⟨hcount.losesFirstDelay world, fun _ _ => hcount.decidesByCount world⟩

/-- A nested expression over draws that never repeat and a clock that stands still. If the first
delay is left out, its second part takes over in a context with another sum of delays. -/
theorem losesOnlyFirstDelay_nested :
    let readings : Readings Nat :=
      ⟨fun _ n => (0, n + 1), fun _ _ _ n => (.ofNanos n, n + 1), fun _ n => (.epoch, n)⟩
    let first : Expr := .intersect (.recurs 2) (.fromDurations [.ofNanos 7, .ofNanos 8, .ofNanos 9])
    let second : Expr := .jitter (.fromDurations [.ofNanos 30]) (.between 0 (.ofNanos 9)) .shared
    let e : Expr := .boxed (.andThen first second)
    let s := e.scheduleIn readings
    let t := e.noDelayOnFirstRetry.scheduleIn readings
    e.hasBudget = false ∧
      ((s.dryRun 5).decisions 9).1 =
        [.runAfter (.ofNanos 7), .runAfter (.ofNanos 8), .runAfter (.ofNanos 35), .complete] ∧
      ((t.dryRun 5).decisions 9).1 =
        [.runAgain, .runAfter (.ofNanos 8), .runAfter (.ofNanos 35), .complete] ∧
      s.DecidesByCount 5 (fun n => (t.position 5 n).context)
        (fun n => (s.position 5 n).context) := by
  intro readings first second e s t
  have he : e.hasBudget = false := rfl
  have hdecisions : ((s.dryRun 5).decisions 9).1 =
      [.runAfter (.ofNanos 7), .runAfter (.ofNanos 8), .runAfter (.ofNanos 35), .complete] := rfl
  obtain ⟨hlose, hdecides⟩ := (losesOnlyFirstDelay e he).2 readings 5
  refine ⟨he, hdecisions, ?_, hdecides _ _ fun n => t.countAlike_position s 5 n⟩
  rw [hlose.decisions 9, hdecisions]
  rfl

/-- With a budget it is otherwise: the delay that is left out is there to be spent later. -/
example :
    let s : Schedule Unit := (Schedule.spaced (.ofNanos 5)).maxCumulativeDelay (.ofNanos 9)
    ((s.dryRun ()).decisions 9).1 = [.runAfter (.ofNanos 5), .complete] ∧
      ((s.noDelayOnFirstRetry.dryRun ()).decisions 9).1 =
        [.runAgain, .runAfter (.ofNanos 5), .complete] := by
  decide +kernel

end Cadence.Expr
