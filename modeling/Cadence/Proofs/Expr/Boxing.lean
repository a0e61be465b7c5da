import Cadence.Config.Build
import Cadence.Proofs.Schedule.Boxing

/-!
# Boxes in expressions

The boxes of an expression can be put in, left out and moved at will: whatever the sources are, two
expressions that differ in nothing else decide the same. So the boxes that a configuration puts
around each layer of its schedule make no difference to it.

## Main definitions

* `Expr.unboxed` — an expression without its boxes
* `Expr.boxing` — the schedule of an expression is the one without boxes, with parts in places
* `Config.bareExpr` — the layers of a configuration without boxes

## Main results

* `Config.unboxed_expr` — a configuration puts boxes around its layers and does nothing else
* `Expr.boxes_unseen` — nobody can tell where there are boxes
-/

namespace Cadence

variable {σ : Type}

namespace Expr

/-- An expression without its boxes. -/
def unboxed : Expr → Expr
  | once => once
  | forever => forever
  | recurs times => recurs times
  | spaced delay => spaced delay
  | linear seed factor => linear seed factor
  | exponential seed factor => exponential seed factor
  | fibonacci seed => fibonacci seed
  | fromDurations delays => fromDurations delays
  | decorrelated a b source => decorrelated a b source
  | smoothDecorrelated median source => smoothDecorrelated median source
  | fixed interval clock => fixed interval clock
  | windowed interval clock => windowed interval clock
  | onOccasion occasion clock => onOccasion occasion clock
  | union l r => union l.unboxed r.unboxed
  | intersect l r => intersect l.unboxed r.unboxed
  | andThen first second => andThen first.unboxed second.unboxed
  | maxDelay inner limit => maxDelay inner.unboxed limit
  | maxCumulativeDelay inner limit => maxCumulativeDelay inner.unboxed limit
  | noDelayOnFirstRetry inner => noDelayOnFirstRetry inner.unboxed
  | jitter inner spread source => jitter inner.unboxed spread source
  | boxed inner => inner.unboxed

/-- The schedule of an expression is that of the expression without boxes, with a part in a place
wherever there is a box. -/
def boxing (readings : Readings σ) :
    (e : Expr) → Schedule.Boxing (e.unboxed.scheduleIn readings) (e.scheduleIn readings)
  | once | forever | recurs _ | spaced _ | linear _ _ | exponential _ _ | fibonacci _
  | fromDurations _ | decorrelated _ _ _ | smoothDecorrelated _ _ | fixed _ _ | windowed _ _
  | onOccasion _ _ => .leaf _
  | union l r => .sideBySide .union (l.boxing readings) (r.boxing readings)
  | intersect l r => .sideBySide .intersect (l.boxing readings) (r.boxing readings)
  | andThen first second => .andThen (first.boxing readings) (second.boxing readings)
  | maxDelay inner limit => .maxDelay (inner.boxing readings) limit
  | maxCumulativeDelay inner limit => .maxCumulativeDelay (inner.boxing readings) limit
  | noDelayOnFirstRetry inner => .noDelayOnFirstRetry (inner.boxing readings)
  | jitter inner spread source =>
    .jitter (inner.boxing readings) spread (readings.uniformDuration source)
  | boxed inner => (inner.boxing readings).boxed

/-- A box around a layer is left out. -/
theorem unboxed_changed {α : Type} {f : Expr → α → Expr}
    (hf : ∀ e x, (f e x).unboxed = f e.unboxed x) (e : Expr) (change : Option α) :
    (e.changed f change).unboxed = change.elim e.unboxed (f e.unboxed) := by
  cases change with
  | none => rfl
  | some x => exact hf e x

end Expr

/-- There are no boxes in a pattern of delays. -/
theorem Backoff.unboxed_expr (backoff : Backoff) (source : SourceName) :
    (backoff.expr source).unboxed = backoff.expr source := by
  cases backoff <;> rfl

/-! ### The layers of a configuration -/

namespace Config

/-- The pattern of delays with the random times and the limit of each delay, without boxes. -/
def bareDelaysExpr (c : Config) (source : SourceName) : Expr :=
  let base := c.backoff.expr source
  let spread := c.jitter.elim base fun jitter => .jitter base jitter.spread source
  c.maxDelay.elim spread fun limit => .maxDelay spread (.ofMillis limit.toNat)

/-- The layers of a configuration without boxes: the pattern of delays, then the random times, the
limit of each delay, the second run at once, the number of runs and the limit of the sum of the
delays. -/
def bareExpr (c : Config) (source : SourceName) : Expr :=
  let delays := c.bareDelaysExpr source
  let eager := if c.noDelayOnFirstRetry then .noDelayOnFirstRetry delays else delays
  let counted := c.maxRetries.elim eager fun retries => .union eager (.recurs retries.toNat)
  c.maxCumulativeDelay.elim counted fun limit => .maxCumulativeDelay counted (.ofMillis limit.toNat)

/-- Checks a configuration and gives its layers without boxes, with the source it draws on. -/
def buildBare (c : Config) (streams : SeedStream) (sources : Sources) :
    Except ConfigError (Expr × Sources) :=
  match c.validate with
  | .error e => .error e
  | .ok () =>
    let (source, sources) := c.addSource streams sources
    .ok (c.bareExpr source, sources)

theorem unboxed_delaysExpr (c : Config) (source : SourceName) :
    (c.delaysExpr source).unboxed = c.bareDelaysExpr source := by
  have hbase : (Expr.boxed (c.backoff.expr source)).unboxed = c.backoff.expr source :=
    c.backoff.unboxed_expr source
  rw [delaysExpr, Expr.unboxed_changed fun _ _ => rfl, Expr.unboxed_changed fun _ _ => rfl, hbase]
  rfl

/-- **A configuration puts boxes around its layers** and does nothing else. -/
theorem unboxed_expr (c : Config) (source : SourceName) :
    (c.expr source).unboxed = c.bareExpr source := by
  rw [expr, Expr.unboxed_changed fun _ _ => rfl, Expr.unboxed_changed fun _ _ => rfl, bareExpr,
    apply_ite Expr.unboxed]
  simp only [Expr.unboxed, unboxed_delaysExpr]

/-- Built with boxes or without, a configuration passes the same checks and has the same layers. -/
theorem map_unboxed_build (c : Config) (streams : SeedStream) (sources : Sources) :
    (c.build streams sources).map (Prod.map Expr.unboxed id) = c.buildBare streams sources := by
  rw [build, buildBare]
  cases c.validate with
  | error e => rfl
  | ok _ =>
    exact congrArg (fun e => Except.ok (e, (c.addSource streams sources).2)) (c.unboxed_expr _)

end Config

/-! ### Nobody can tell -/

namespace Expr

section Runs

variable {ι : Type} [DecidableEq ι]

/-- Runs of expressions that differ in their boxes only make the same decisions. -/
theorem inStep_of_unboxed_eq (readings : Readings σ) {e e' : ι → Expr}
    (h : ∀ i, (e i).unboxed = (e' i).unboxed) :
    Schedule.InStep (fun i => (e i).scheduleIn readings) fun i => (e' i).scheduleIn readings := by
  have hunboxed : (fun i => (e i).unboxed.scheduleIn readings) =
      fun i => (e' i).unboxed.scheduleIn readings :=
    funext fun i => congrArg (scheduleIn readings) (h i)
  have hleft := (Schedule.Boxing.unseen fun i => (e i).boxing readings).toInStep
  have hright := (Schedule.Boxing.unseen fun i => (e' i).boxing readings).toInStep
  rw [hunboxed] at hleft
  exact hleft.symm.trans hright

end Runs

/-- Boxes make no difference. -/
structure BoxesUnseen : Prop where
  /-- Nobody can tell whether there are boxes around schedules. -/
  whole : ∀ {σ ι : Type} [DecidableEq ι] (s : ι → Schedule σ),
    Schedule.Boxing.Unseen fun i => (Schedule.Boxing.leaf (s i)).boxed
  /-- Nor can anybody tell which parts of schedules are in boxes. -/
  parts : ∀ {σ ι : Type} [DecidableEq ι] {s t : ι → Schedule σ}
    (h : ∀ i, Schedule.Boxing (s i) (t i)), Schedule.Boxing.Unseen h
  /-- That the work is complete with an empty box is a case of this, as is all that might be decided
  instead. -/
  empty : ∀ {σ : Type} (s : Schedule σ), s.boxedOr (fun _ => Move.pure .complete) = s.boxed
  /-- Nor where there are boxes in expressions, over any sources. -/
  expressions : ∀ {σ ι : Type} [DecidableEq ι] (readings : Readings σ) (e : ι → Expr),
    Schedule.Boxing.Unseen fun i => (e i).boxing readings
  /-- Runs of expressions that differ in their boxes only make the same decisions. -/
  moved : ∀ {σ ι : Type} [DecidableEq ι] (readings : Readings σ) {e e' : ι → Expr},
    (∀ i, (e i).unboxed = (e' i).unboxed) →
    Schedule.InStep (fun i => (e i).scheduleIn readings) fun i => (e' i).scheduleIn readings
  /-- A configuration puts boxes around its layers and does nothing else. -/
  built : ∀ (c : Config) (streams : SeedStream) (sources : Sources),
    (c.build streams sources).map (Prod.map unboxed id) = c.buildBare streams sources
  /-- The schedule that an expression stands for is the one over the named sources. -/
  named : ∀ e : Expr, e.schedule = e.scheduleIn Sources.readings

/-- **Boxes make no difference**, be they around a whole schedule, around any parts of it, or around
each layer of a configuration. Any number of runs, in one world and in any order, also in contexts
of any kind and after they are complete, make the decisions that they make without boxes, and no
state is ever missing from its box. -/
theorem boxes_unseen : BoxesUnseen where
  whole s := Schedule.Boxing.unseen fun i => (Schedule.Boxing.leaf (s i)).boxed
  parts := Schedule.Boxing.unseen
  empty := Schedule.boxedOr_complete
  expressions readings e := Schedule.Boxing.unseen fun i => (e i).boxing readings
  moved readings _ _ h := inStep_of_unboxed_eq readings h
  built := Config.map_unboxed_build
  named e := e.scheduleIn_readings.symm

/-- Two runs of a boxed expression that draw from one source, here a count, in turn. The first one
is stepped on after it is complete. -/
example :
    let readings : Readings Nat :=
      ⟨fun _ n => (0, n + 1), fun _ _ _ n => (.ofNanos n, n + 1), fun _ n => (.epoch, n)⟩
    let jittered : Expr := .jitter (.spaced 0) (.between 0 0) .shared
    let e : Expr := .boxed (.union (.boxed jittered) (.recurs 1))
    let s : Bool → Schedule Nat := fun _ => e.scheduleIn readings
    (Schedule.interleave s [(true, .step), (false, .step), (true, .step), (true, .step)]
      (fun i => (s i).fresh) 5).1.1 =
        [(true, .runAfter (.ofNanos 5)), (false, .runAfter (.ofNanos 6)), (true, .complete),
          (true, .complete)] := rfl

end Expr

end Cadence
