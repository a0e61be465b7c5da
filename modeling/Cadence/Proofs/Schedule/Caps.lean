import Cadence.Proofs.Expr.Continuations
import Cadence.Proofs.Run.Gated

/-!
# Caps on the delays of a composition

A cap may be put on a composition as a whole or on each of its parts. Cutting down a delay is
monotone, so it does not matter whether the shorter or the longer of two delays is taken before or
after it; it touches neither `runAgain` nor `complete`, so a schedule that is capped hands over to
the next one in the same step. What is moved is the place of the cap and nothing else: the parts
keep their states, and see the same contexts as before. So the laws are equations between schedules,
and hold in every place of a larger composition, whatever sources its parts share.

## Scope

A cap is not moved into `jitter`, which makes delays longer, and not into `maxCumulativeDelay`, for
which it makes a difference whether a delay that goes beyond the budget is cut down before or after.

## Main definitions

* `Schedule.CapLaws` — the laws of caps
* `Expr.capped` — an expression with a cap on each of its parts

## Main results

* `Schedule.Steers.mem_delays_le` — no delay of a run is longer than the cap
* `Schedule.maxDelay_union` and the lemmas beside it — one law for each way of composing
* `Expr.scheduleIn_capped` — a cap may be moved to the parts of any expression
* `Schedule.cap_pushes_through` — all of this
-/

namespace Cadence

variable {σ α ε τ β : Type}

/-! ### Capped decisions -/

namespace Decision

theorem delay_cap_le (limit : Duration) (d : Decision) : (d.cap limit).delay ≤ limit := by
  rw [delay_cap, Duration.le_def, Duration.nanos_min]
  exact Nat.min_le_right _ _

/-- A cap on two merged decisions, if it is the same on two delays. -/
theorem cap_merge {pick : Duration → Duration → Duration} {limit : Duration}
    (hpick : ∀ a b, min (pick a b) limit = pick (min a limit) (min b limit)) (d d' : Decision) :
    (merge pick d d').cap limit = merge pick (d.cap limit) (d'.cap limit) := by
  cases d with
  | complete => rfl
  | runAgain => cases d' <;> rfl
  | runAfter delay =>
    cases d' with
    | complete => rfl
    | runAgain => rfl
    | runAfter delay' => exact congrArg runAfter (hpick delay delay')

theorem cap_union (limit : Duration) (d d' : Decision) :
    (d.union d').cap limit = (d.cap limit).union (d'.cap limit) := by
  refine cap_merge (fun a b => Duration.ext ?_) d d'
  simp only [Duration.nanos_min]
  omega

theorem cap_intersect (limit : Duration) (d d' : Decision) :
    (d.intersect d').cap limit = (d.cap limit).intersect (d'.cap limit) := by
  refine cap_merge (fun a b => Duration.ext ?_) d d'
  simp only [Duration.nanos_min, Duration.nanos_max]
  omega

/-- Of two caps the lower one counts. -/
theorem cap_cap (limit limit' : Duration) (d : Decision) :
    (d.cap limit).cap limit' = d.cap (min limit limit') := by
  cases d with
  | complete => rfl
  | runAgain => rfl
  | runAfter delay =>
    refine congrArg runAfter (Duration.ext ?_)
    simp only [Duration.nanos_min, Nat.min_assoc]

end Decision

namespace Schedule

variable {s : Schedule σ} {limit : Duration}

/-! ### The delays of runs -/

theorem delay_maxDelay_le (s : Schedule σ) (limit : Duration) (state : s.State) (context : Context)
    (world : σ) : ((s.maxDelay limit).step state context world).decision.delay ≤ limit :=
  Decision.delay_cap_le limit _

/-- A capped schedule makes no longer delay as a policy, also with a gate. -/
theorem Steers.delay_step_le {p : Policy σ α ε} (h : (s.maxDelay limit).Steers p) (state : p.State)
    (context : Context) (outcome : Except ε α) (world : σ) :
    (p.step state context outcome world).decision.delay ≤ limit := by
  cases h with
  | plain => exact s.delay_maxDelay_le limit state context world
  | gated test wanted =>
    simp only [Schedule.gated]
    split
    · exact s.delay_maxDelay_le limit state context world
    · exact Duration.zero_le limit

end Schedule

namespace Run

open Happening

/-- Each delay that the sleeper of a run is asked for is that of a decision. -/
theorem exists_delay_of_mem_asked {r : Run σ α ε τ β} {driver : Driver} {n : Nat} {d : Duration}
    (h : d ∈ asked (r.upTo driver n).trace) : ∃ i, d = (r.decision i).delay := by
  have hdelays : ∀ m, d ∈ (List.range m).map r.delay → ∃ i, d = (r.decision i).delay := by
    intro m hmem
    obtain ⟨i, -, rfl⟩ := List.mem_map.mp hmem
    exact ⟨i, rfl⟩
  have hturns : d ∈ asked (r.turns n).trace :=
    ((r.isPrefix_trace_upTo driver n).filterMap _).subset h
  rcases undisturbed_or_lastTurn r n with hall | ⟨k, hk, hlast⟩
  · rw [turns_of_undisturbed hall, asked_history] at hturns
    exact hdelays n hturns
  · rw [turns_of_lastTurn hlast hk, asked_whole] at hturns
    exact hdelays _ hturns

end Run

namespace Schedule

variable {s : Schedule σ} {limit : Duration}

open Happening

/-- **No delay of a run is longer than the cap**, neither one that is told to the observer nor one
that the sleeper is asked for. -/
theorem Steers.mem_delays_le {r : Run σ α ε τ β} (h : (s.maxDelay limit).Steers r.policy)
    (driver : Driver) (n : Nat) :
    (∀ d ∈ decisions (r.upTo driver n).trace, d.delay ≤ limit) ∧
      ∀ delay ∈ asked (r.upTo driver n).trace, delay ≤ limit := by
  have hdecision : ∀ i, (r.decision i).delay ≤ limit := fun i => h.delay_step_le _ _ _ _
  constructor
  · intro d hd
    obtain ⟨j, hmade, -⟩ := r.exists_decisions_upTo driver n
    rw [hmade] at hd
    obtain ⟨i, -, rfl⟩ := List.mem_map.mp hd
    exact hdecision i
  · intro delay hdelay
    obtain ⟨i, rfl⟩ := Run.exists_delay_of_mem_asked hdelay
    exact hdecision i

/-! ### One law for each way of composing -/

/-- Schedules are the same if they make the same steps in the same states. -/
theorem eq_of_step {τ : Type} {start : τ} {f g : τ → Context → σ → Step τ σ}
    (h : ∀ state context world, f state context world = g state context world) :
    (⟨τ, start, f⟩ : Schedule σ) = ⟨τ, start, g⟩ := by
  have hstep : f = g := by
    funext state context world
    exact h state context world
  rw [hstep]

theorem maxDelay_sideBySide {merge : Decision → Decision → Decision} {limit : Duration}
    (hmerge : ∀ d d', (merge d d').cap limit = merge (d.cap limit) (d'.cap limit))
    (l r : Schedule σ) :
    (sideBySide merge l r).maxDelay limit =
      sideBySide merge (l.maxDelay limit) (r.maxDelay limit) :=
  eq_of_step fun _ _ _ => Step.ext (hmerge _ _) rfl rfl

theorem maxDelay_union (l r : Schedule σ) (limit : Duration) :
    (l.union r).maxDelay limit = (l.maxDelay limit).union (r.maxDelay limit) :=
  maxDelay_sideBySide (Decision.cap_union limit) l r

theorem maxDelay_intersect (l r : Schedule σ) (limit : Duration) :
    (l.intersect r).maxDelay limit = (l.maxDelay limit).intersect (r.maxDelay limit) :=
  maxDelay_sideBySide (Decision.cap_intersect limit) l r

/-- A capped schedule is complete when it is without the cap, so the next one takes over in the same
step and at the same origin. -/
theorem maxDelay_andThen (a b : Schedule σ) (limit : Duration) :
    (a.andThen b).maxDelay limit = (a.maxDelay limit).andThen (b.maxDelay limit) := by
  refine eq_of_step fun state context world => ?_
  cases state with
  | second state origin => rfl
  | first state =>
    simp only [andThen, maxDelay, Decision.isComplete_eq_not_continues, Decision.continues_cap]
    split
    · rfl
    · rfl

theorem maxDelay_noDelayOnFirstRetry (s : Schedule σ) (limit : Duration) :
    s.noDelayOnFirstRetry.maxDelay limit = (s.maxDelay limit).noDelayOnFirstRetry := by
  refine eq_of_step fun state context world => ?_
  simp only [noDelayOnFirstRetry, maxDelay, Decision.continues_cap]
  split
  · rfl
  · rfl

theorem maxDelay_maxDelay (s : Schedule σ) (limit limit' : Duration) :
    (s.maxDelay limit).maxDelay limit' = s.maxDelay (min limit limit') :=
  eq_of_step fun _ _ _ => Step.ext (Decision.cap_cap limit limit' _) rfl rfl

theorem maxDelay_boxed (s : Schedule σ) (limit : Duration) :
    s.boxed.maxDelay limit = (s.maxDelay limit).boxed := by
  refine eq_of_step fun place context world => ?_
  cases place with
  | none => rfl
  | some state => rfl

/-- The laws of caps on the schedules `l` and `r`. -/
structure CapLaws (l r : Schedule σ) (limit limit' : Duration) : Prop where
  /-- No step makes a delay that is longer than the cap. -/
  step : ∀ state context world, ((l.maxDelay limit).step state context world).decision.delay ≤ limit
  /-- So no run tells of such a delay, and no run sleeps so long, behind a gate or not. -/
  run : ∀ {α ε τ β : Type} (run : Run σ α ε τ β), (l.maxDelay limit).Steers run.policy →
    ∀ driver n, (∀ d ∈ Happening.decisions (run.upTo driver n).trace, d.delay ≤ limit) ∧
      ∀ delay ∈ Happening.asked (run.upTo driver n).trace, delay ≤ limit
  /-- The shorter of two delays is capped as both are. -/
  union : (l.union r).maxDelay limit = (l.maxDelay limit).union (r.maxDelay limit)
  /-- So is the longer of them. -/
  intersect : (l.intersect r).maxDelay limit = (l.maxDelay limit).intersect (r.maxDelay limit)
  /-- One after the other, both are capped. -/
  andThen : (l.andThen r).maxDelay limit = (l.maxDelay limit).andThen (r.maxDelay limit)
  /-- It makes no difference whether the first delay is left out before or after. -/
  noDelayOnFirstRetry :
    l.noDelayOnFirstRetry.maxDelay limit = (l.maxDelay limit).noDelayOnFirstRetry
  /-- Of two caps the lower one counts. -/
  maxDelay : (l.maxDelay limit).maxDelay limit' = l.maxDelay (min limit limit')

theorem capLaws (l r : Schedule σ) (limit limit' : Duration) : CapLaws l r limit limit' where
  step := l.delay_maxDelay_le limit
  run _ h := h.mem_delays_le
  union := maxDelay_union l r limit
  intersect := maxDelay_intersect l r limit
  andThen := maxDelay_andThen l r limit
  noDelayOnFirstRetry := maxDelay_noDelayOnFirstRetry l limit
  maxDelay := maxDelay_maxDelay l limit limit'

end Schedule

/-! ### Caps on the parts of an expression -/

namespace Expr

/-- An expression with a cap on each of its parts into which it can be moved. -/
def capped : Expr → Duration → Expr
  | union l r, limit => .union (l.capped limit) (r.capped limit)
  | intersect l r, limit => .intersect (l.capped limit) (r.capped limit)
  | andThen first second, limit => .andThen (first.capped limit) (second.capped limit)
  | noDelayOnFirstRetry inner, limit => .noDelayOnFirstRetry (inner.capped limit)
  | maxDelay inner limit', limit => inner.capped (min limit' limit)
  | boxed inner, limit => .boxed (inner.capped limit)
  | e, limit => .maxDelay e limit

/-- **A cap may be moved to the parts of an expression**, over any sources. -/
theorem scheduleIn_capped (readings : Readings σ) (e : Expr) (limit : Duration) :
    (e.capped limit).scheduleIn readings = (e.scheduleIn readings).maxDelay limit := by
  induction e generalizing limit with
  | union l r hl hr => rw [capped, scheduleIn, scheduleIn, hl, hr, Schedule.maxDelay_union]
  | intersect l r hl hr =>
    rw [capped, scheduleIn, scheduleIn, hl, hr, Schedule.maxDelay_intersect]
  | andThen first second hfirst hsecond =>
    rw [capped, scheduleIn, scheduleIn, hfirst, hsecond, Schedule.maxDelay_andThen]
  | noDelayOnFirstRetry inner ih =>
    rw [capped, scheduleIn, scheduleIn, ih, Schedule.maxDelay_noDelayOnFirstRetry]
  | maxDelay inner limit' ih => rw [capped, scheduleIn, ih, Schedule.maxDelay_maxDelay]
  | boxed inner ih => rw [capped, scheduleIn, scheduleIn, ih, Schedule.maxDelay_boxed]
  | _ => rfl

end Expr

/-- **A cap pushes through a composition.** No delay of a capped schedule is longer than the cap. A
cap on two schedules side by side or one after the other is a cap on each of them, it changes places
with the rule for the first delay, and two caps are the lower one; so it may be put on the whole of
an expression or on its parts. -/
theorem Schedule.cap_pushes_through (l r : Schedule σ) (limit limit' : Duration)
    (readings : Readings σ) (e : Expr) :
    CapLaws l r limit limit' ∧
      (e.capped limit).scheduleIn readings = (e.scheduleIn readings).maxDelay limit :=
  ⟨capLaws l r limit limit', e.scheduleIn_capped readings limit⟩

/-- A cap on a bounded backoff is one on its delays and one on what bounds it. -/
example (seed limit : Duration) :
    (Expr.union (.exponential seed 2.0) (.recurs 5)).capped limit =
      .union (.maxDelay (.exponential seed 2.0) limit) (.maxDelay (.recurs 5) limit) :=
  rfl

end Cadence
