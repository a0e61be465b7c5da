import Cadence.Config.Build
import Cadence.Proofs.Run.DryRun
import Cadence.Proofs.Schedule.Budget

/-!
# When the schedule of a configuration completes

A configuration that passes its checks sets some bound, but a limit on the sum of the delays is a
bound only for delays that add up. Here is exactly when the schedule of a configuration completes:
if the number of runs is limited, if there is a list of delays, or if the delays that it would make
without the limit on their sum add up to that limit.

## Scope

The number of decisions is counted up to `maxCount` only, so a list of delays that is longer than
that goes on with one of its delays for ever. Whether random or fractional delays add up depends on
what is drawn and on floating-point arithmetic, and no condition on the parameters alone decides it.
Where whole milliseconds do decide it, `Backoff.floor` and `Config.Idle` say how.

## Main definitions

* `Config.withoutBudget` — a configuration without the limit on the sum of its delays
* `Config.StopsByItself` — whether it then still completes
* `Backoff.floor`, `Config.Idle` — delays that add up for certain, and delays that never do

## Main results

* `Config.completes_expr_iff` — when the schedule of a configuration completes
* `Config.build_completes_iff` — the same for a configuration that passes its checks
* `Config.validate_accepts_endless` — one that does so and never completes
-/

namespace Cadence

/-! ### Limits and times in milliseconds -/

theorem Duration.nanos_ofMillis (n : UInt64) :
    (ofMillis n.toNat).nanos = n.toNat * nanosPerMilli := by
  have hn := n.toNat_lt
  rw [ofMillis, nanos_ofNanos]
  refine Nat.min_eq_left ?_
  rw [nanosPerMilli, maxNanos]
  omega

theorem Duration.ofMillis_lt_longest (n : UInt64) : ofMillis n.toNat < longest := by
  have hn := n.toNat_lt
  rw [lt_def, nanos_ofMillis, nanos_longest, nanosPerMilli, maxNanos]
  omega

theorem Duration.ofMillis_zero : ofMillis (0 : UInt64).toNat = 0 :=
  Duration.ext (nanos_ofMillis 0)

/-- Two equal ends leave nothing to draw. -/
theorem Sources.uniformDuration_self (source : SourceName) (d : Duration) (world : Sources) :
    (uniformDuration source d d world).1 = d := by
  rw [uniformDuration, RandomSource.uniformDuration, if_pos rfl]

/-! ### Patterns of delays -/

namespace Backoff

/-- A time below which no delay of the pattern falls. -/
def floor : Backoff → UInt64
  | spaced delay => delay
  | linear seed _ => seed
  | fibonacci seed => seed
  | _ => 0

/-- Whether the pattern has no delays that take any time. -/
def Idle : Backoff → Prop
  | spaced delay => delay = 0
  | linear seed _ => seed = 0
  | exponential seed _ => seed = 0
  | fibonacci seed => seed = 0
  | decorrelated low high => low = 0 ∧ high = 0
  | forever => True
  | _ => False

/-- A list of delays comes to its end. -/
theorem completeFrom {b : Backoff} {delays : List UInt64} (h : b = durations delays)
    (source : SourceName) : (b.expr source).schedule.CompleteFrom delays.length := by
  subst h
  have hlist := Schedule.completeFrom_fromDurations (σ := Sources)
    (delays.map fun delay => .ofMillis delay.toNat)
  rwa [List.length_map] at hlist

/-- No pattern completes, apart from a list whose length can be counted. -/
theorem endless (b : Backoff) (source : SourceName)
    (h : ∀ delays, b = durations delays → maxCount < delays.length) :
    (b.expr source).schedule.Endless := by
  cases b with
  | spaced delay => exact Schedule.always_ofContext fun _ => rfl
  | linear seed factor => exact Schedule.always_ofContext fun _ => rfl
  | exponential seed factor => exact Schedule.always_ofContext fun _ => rfl
  | fibonacci seed => exact ⟨fun _ => True, trivial, fun _ _ _ _ => ⟨rfl, trivial⟩⟩
  | durations delays =>
    refine Schedule.always_ofContext ?_
    intro c
    have hlength :
        c.iteration < (delays.map fun delay => Duration.ofMillis delay.toNat).length := by
      rw [List.length_map]
      exact Nat.lt_of_le_of_lt c.iteration_le (h delays rfl)
    rw [List.getElem?_eq_getElem hlength]
    rfl
  | decorrelated low high => exact ⟨fun _ => True, trivial, fun _ _ _ _ => ⟨rfl, trivial⟩⟩
  | smoothDecorrelated median =>
    refine ⟨fun _ => True, trivial, fun state context world _ => ⟨?_, trivial⟩⟩
    simp only [expr, Expr.schedule, Schedule.smoothDecorrelated]
    split <;> rfl
  | forever => exact Schedule.always_ofContext fun _ => rfl

theorem delaysFrom (b : Backoff) (source : SourceName) :
    (b.expr source).schedule.DelaysFrom (.ofMillis b.floor.toNat) := by
  cases b with
  | spaced delay => exact Schedule.delaysFrom_spaced _
  | linear seed factor => exact Schedule.delaysFrom_linear _ factor
  | fibonacci seed => exact Schedule.delaysFrom_fibonacci _
  | _ =>
    simp only [floor, Duration.ofMillis_zero]
    exact Schedule.delaysFrom_zero _

theorem Idle.schedule {b : Backoff} (h : b.Idle) (source : SourceName) :
    (b.expr source).schedule.Idle := by
  cases b with
  | spaced delay =>
    obtain rfl : delay = 0 := h
    simp only [expr, Duration.ofMillis_zero]
    exact Schedule.idle_spaced
  | linear seed factor =>
    obtain rfl : seed = 0 := h
    simp only [expr, Duration.ofMillis_zero]
    exact Schedule.idle_linear factor
  | exponential seed factor =>
    obtain rfl : seed = 0 := h
    simp only [expr, Duration.ofMillis_zero]
    exact Schedule.idle_exponential factor
  | fibonacci seed =>
    obtain rfl : seed = 0 := h
    simp only [expr, Duration.ofMillis_zero]
    exact Schedule.idle_fibonacci
  | decorrelated low high =>
    obtain ⟨rfl, rfl⟩ : low = 0 ∧ high = 0 := h
    simp only [expr, Duration.ofMillis_zero]
    exact Schedule.idle_decorrelated (Sources.uniformDuration_self source 0)
  | forever => exact Schedule.idle_forever
  | durations delays => exact h.elim
  | smoothDecorrelated median => exact h.elim

end Backoff

/-- Whether nothing is added to a delay that takes no time. -/
def Jitter.Idle : Jitter → Prop
  | between low high => low = 0 ∧ high = 0
  | proportional _ => True

theorem Jitter.Idle.ends {jitter : Jitter} (h : jitter.Idle) :
    jitter.spread.ends 0 = ((0, 0) : Duration × Duration) := by
  cases jitter with
  | between low high =>
    obtain ⟨rfl, rfl⟩ : low = 0 ∧ high = 0 := h
    simp only [spread, Spread.ends, Duration.ofMillis_zero]
  | proportional factor =>
    show ((0 : Duration), (0 : Duration).scale factor) = (0, 0)
    rw [Duration.scale_zero]

/-! ### Changed step by step -/

namespace Config

variable (c : Config) (source : SourceName) {p : Schedule Sources → Prop}

/-- What holds of the pattern of delays, and still holds when it is changed, holds with the random
times and the limit of each delay. -/
theorem delaysExpr_of (hboxed : ∀ s, p s → p s.boxed) (hbase : p (c.backoff.expr source).schedule)
    (hjitter : ∀ s jitter, c.jitter = some jitter → p s →
      p (s.jitter jitter.spread (Sources.uniformDuration source)))
    (hlimit : ∀ s limit, c.maxDelay = some limit → p s → p (s.maxDelay (.ofMillis limit.toNat))) :
    p (c.delaysExpr source).schedule := by
  have hspread : p ((Expr.boxed (c.backoff.expr source)).changed
      (fun e jitter => .jitter e jitter.spread source) c.jitter).schedule := by
    cases h : c.jitter with
    | none => exact hboxed _ hbase
    | some jitter => exact hboxed _ (hjitter _ jitter h (hboxed _ hbase))
  rw [delaysExpr]
  cases h : c.maxDelay with
  | none => exact hspread
  | some limit => exact hboxed _ (hlimit _ limit h hspread)

/-- The configuration without the limit of the sum of the delays. -/
def withoutBudget : Config := { c with maxCumulativeDelay := none }

/-- The limit on the sum of the delays comes last. -/
theorem expr_of_maxCumulativeDelay {limit : UInt64} (h : c.maxCumulativeDelay = some limit) :
    c.expr source =
      .boxed (.maxCumulativeDelay (c.withoutBudget.expr source) (.ofMillis limit.toNat)) := by
  simp only [expr, withoutBudget, h, Expr.changed]
  rfl

theorem withoutBudget_eq_self (h : c.maxCumulativeDelay = none) : c.withoutBudget = c := by
  rw [withoutBudget, ← h]

/-- What holds of these delays, and still holds when the second run follows at once, holds of a
configuration that limits neither the number of runs nor the sum of the delays. -/
theorem withoutBudget_of (hretries : c.maxRetries = none) (hboxed : ∀ s, p s → p s.boxed)
    (hfirst : ∀ s, p s → p s.noDelayOnFirstRetry) (hdelays : p (c.delaysExpr source).schedule) :
    p (c.withoutBudget.expr source).schedule := by
  have hexpr : c.withoutBudget.expr source =
      if c.noDelayOnFirstRetry then .boxed (.noDelayOnFirstRetry (c.delaysExpr source))
      else c.delaysExpr source := by
    simp only [expr, withoutBudget, hretries, Expr.changed]
    rfl
  rw [hexpr]
  split
  · exact hboxed _ (hfirst _ hdelays)
  · exact hdelays

/-- A configuration that limits the number of runs is complete after as many. -/
theorem completeFrom_of_maxRetries {retries : UInt32} (h : c.maxRetries = some retries) :
    (c.withoutBudget.expr source).schedule.CompleteFrom retries.toNat := by
  have hexpr : ∃ e, c.withoutBudget.expr source = .boxed (.union e (.recurs retries.toNat)) := by
    simp only [expr, withoutBudget, h, Expr.changed]
    exact ⟨_, rfl⟩
  obtain ⟨e, he⟩ := hexpr
  rw [he]
  exact (Schedule.completeFrom_recurs retries.toNat).union_right.boxed

/-! ### Without the limit on the sum of the delays -/

/-- Whether a configuration completes without the limit of the sum of the delays: it limits the
number of runs, or it has a list of delays whose length can be counted. -/
def StopsByItself : Prop :=
  c.maxRetries.isSome ∨ ∃ delays, c.backoff = .durations delays ∧ delays.length ≤ maxCount

variable {c} in
theorem maxRetries_eq_none (h : ¬ c.StopsByItself) : c.maxRetries = none := by
  cases hretries : c.maxRetries with
  | none => rfl
  | some retries => exact absurd (Or.inl (by rw [hretries]; rfl)) h

theorem endless_withoutBudget (h : ¬ c.StopsByItself) :
    (c.withoutBudget.expr source).schedule.Endless := by
  have hlong : ∀ delays, c.backoff = .durations delays → maxCount < delays.length :=
    fun delays hdelays => Nat.lt_of_not_le fun hle => h (Or.inr ⟨delays, hdelays, hle⟩)
  refine c.withoutBudget_of source (maxRetries_eq_none h) (fun _ hs => hs.boxed)
    (fun _ hs => hs.noDelayOnFirstRetry) ?_
  exact c.delaysExpr_of source (fun _ hs => hs.boxed) (c.backoff.endless source hlong)
    (fun _ jitter _ hs => hs.jitter jitter.spread _) (fun _ limit _ hs => hs.maxDelay _)

/-- A configuration with a list of delays is complete after as many. -/
theorem completeFrom_of_durations (hretries : c.maxRetries = none) {delays : List UInt64}
    (hdelays : c.backoff = .durations delays) :
    (c.withoutBudget.expr source).schedule.CompleteFrom delays.length := by
  refine c.withoutBudget_of source (p := fun s => s.CompleteFrom delays.length) hretries
    (fun _ hs => hs.boxed) (fun _ hs => hs.noDelayOnFirstRetry) ?_
  exact c.delaysExpr_of source (p := fun s => s.CompleteFrom delays.length)
    (fun _ hs => hs.boxed) (Backoff.completeFrom hdelays source)
    (fun _ jitter _ hs => hs.jitter jitter.spread _) (fun _ limit _ hs => hs.maxDelay _)

/-- **Without the limit on the sum of the delays**, a configuration completes exactly if it stops by
itself. -/
theorem completes_withoutBudget_iff (world : Sources) :
    (c.withoutBudget.expr source).schedule.Completes world ↔ c.StopsByItself := by
  constructor
  · intro hcompletes
    refine Classical.byContradiction ?_
    intro h
    exact (c.endless_withoutBudget source h).not_completes world hcompletes
  · intro h
    cases hretries : c.maxRetries with
    | some retries =>
      have hcount : retries.toNat ≤ maxCount := Nat.le_of_lt_succ retries.toNat_lt
      exact (c.completeFrom_of_maxRetries source hretries).completes hcount world
    | none =>
      have hlist : ∃ delays, c.backoff = .durations delays ∧ delays.length ≤ maxCount := by
        rw [StopsByItself, hretries] at h
        exact h.resolve_left Bool.false_ne_true
      obtain ⟨delays, hdelays, hlength⟩ := hlist
      exact (c.completeFrom_of_durations source hretries hdelays).completes hlength world

/-! ### With that limit -/

/-- Whether the delays that a configuration would make without the limit of their sum add up to that
limit. -/
def SpendsBudget (world : Sources) : Prop :=
  ∃ limit, c.maxCumulativeDelay = some limit ∧
    ∃ n, limit.toNat * Duration.nanosPerMilli ≤
      (c.withoutBudget.expr source).schedule.spent world n

/-- **When the schedule of a configuration completes.** -/
theorem completes_expr_iff (world : Sources) :
    (c.expr source).schedule.Completes world ↔
      c.StopsByItself ∨ c.SpendsBudget source world := by
  rw [← c.completes_withoutBudget_iff source world]
  cases hbudget : c.maxCumulativeDelay with
  | none =>
    have hnever : ¬ c.SpendsBudget source world := by
      rintro ⟨limit, hlimit, -⟩
      rw [hbudget] at hlimit
      exact nomatch hlimit
    rw [c.withoutBudget_eq_self hbudget, or_iff_left hnever]
  | some limit =>
    rw [c.expr_of_maxCumulativeDelay source hbudget, Expr.schedule, Schedule.completes_boxed,
      Expr.schedule, Schedule.completes_maxCumulativeDelay_iff, Duration.nanos_ofMillis]
    refine or_congr_right ⟨fun h => ⟨limit, hbudget, h⟩, ?_⟩
    rintro ⟨limit', hlimit', h⟩
    obtain rfl : limit = limit' := Option.some.inj (hbudget.symm.trans hlimit')
    exact h

/-- Delays that cannot fall below a time, and are not cut down to nothing, take a millisecond each,
apart from the first perhaps. -/
theorem delaysFrom_of_floor (hretries : c.maxRetries = none) (hfloor : c.backoff.floor ≠ 0)
    (hlimit : c.maxDelay ≠ some 0) :
    (c.withoutBudget.expr source).schedule.DelaysFrom (.ofMillis 1) := by
  have hmilli : ∀ n : UInt64, n ≠ 0 → Duration.ofMillis 1 ≤ .ofMillis n.toNat := by
    intro n hn
    have hpos : n.toNat ≠ 0 := fun h => hn (UInt64.toNat_inj.mp h)
    rw [Duration.le_def, Duration.nanos_ofMillis, Duration.ofMillis, Duration.nanos_ofNanos,
      Duration.nanosPerMilli]
    omega
  refine c.withoutBudget_of source (p := fun s => s.DelaysFrom (.ofMillis 1)) hretries
    (fun _ hs => hs.boxed) (fun _ hs => hs.noDelayOnFirstRetry) ?_
  refine c.delaysExpr_of source (p := fun s => s.DelaysFrom (.ofMillis 1)) (fun _ hs => hs.boxed)
    ((c.backoff.delaysFrom source).mono (hmilli _ hfloor))
    (fun _ jitter _ hs => hs.jitter jitter.spread _) ?_
  intro s limit hsome hs
  exact hs.maxDelay (hmilli limit fun hzero => hlimit (by rw [hsome, hzero]))

/-- Such delays add up to any limit. -/
theorem spendsBudget_of_floor (hstops : ¬ c.StopsByItself) (hfloor : c.backoff.floor ≠ 0)
    (hlimit : c.maxDelay ≠ some 0) (hbudget : c.maxCumulativeDelay.isSome) (world : Sources) :
    c.SpendsBudget source world := by
  obtain ⟨limit, hsome⟩ := Option.isSome_iff_exists.mp hbudget
  have hdelays := c.delaysFrom_of_floor source (maxRetries_eq_none hstops) hfloor hlimit
  exact ⟨limit, hsome, hdelays.exists_le_spent (by decide) world _⟩

/-- Whether a configuration has no delays that take any time: they are cut down to nothing, or there
are none in the first place and none are added. -/
def Idle : Prop :=
  c.maxDelay = some 0 ∨ (c.backoff.Idle ∧ ∀ jitter, c.jitter = some jitter → jitter.Idle)

/-- Delays that take no time do not add up to any limit but zero. -/
theorem Idle.not_spendsBudget {c : Config} (h : c.Idle) (hstops : ¬ c.StopsByItself)
    (hbudget : c.maxCumulativeDelay ≠ some 0) (source : SourceName) (world : Sources) :
    ¬ c.SpendsBudget source world := by
  have hdelays : (c.delaysExpr source).schedule.Idle := by
    rcases h with hlimit | ⟨hbackoff, hjitter⟩
    · rw [delaysExpr, hlimit]
      simp only [Expr.changed, Duration.ofMillis_zero]
      exact (Schedule.idle_maxDelay _).boxed
    · refine c.delaysExpr_of source (fun _ hs => hs.boxed) (hbackoff.schedule source) ?_
        (fun _ limit _ hs => hs.maxDelay _)
      exact fun _ jitter hsome hs =>
        hs.jitter (hjitter jitter hsome).ends (Sources.uniformDuration_self source 0)
  have hidle : (c.withoutBudget.expr source).schedule.Idle :=
    c.withoutBudget_of source (maxRetries_eq_none hstops) (fun _ hs => hs.boxed)
      (fun _ hs => hs.noDelayOnFirstRetry) hdelays
  rintro ⟨limit, hlimit, n, hn⟩
  rw [hidle.spent_eq_zero] at hn
  have hzero : limit.toNat = 0 := by
    rw [Duration.nanosPerMilli] at hn
    omega
  exact hbudget (hlimit.trans (congrArg some (UInt64.toNat_inj.mp hzero)))

/-! ### Configurations that pass their checks -/

/-- A configuration that passes its checks is built. -/
theorem build_of_valid {c : Config} (h : c.validate = .ok ()) (streams : SeedStream)
    (sources : Sources) : c.build streams sources =
      .ok (c.expr (c.addSource streams sources).1, (c.addSource streams sources).2) := by
  rw [build, h]

/-- **When the schedule of a configuration that passes its checks completes**, whatever is drawn:
if the number of runs is limited, if there is a list of delays whose length can be counted, or if
the delays it would make without the limit on their sum add up to that limit. They do so for certain
if the pattern has a floor, and never if they take no time. A retry of an effect that always fails
ends exactly if the schedule completes. -/
theorem build_completes_iff (c : Config) (hvalid : c.validate = .ok ()) (streams : SeedStream)
    (sources : Sources) :
    ∃ e built, c.build streams sources = .ok (e, built) ∧ ∀ world : Sources,
      (e.schedule.Completes world ↔
        c.StopsByItself ∨ c.SpendsBudget (c.addSource streams sources).1 world) ∧
      (c.maxCumulativeDelay.isSome → c.backoff.floor ≠ 0 → c.maxDelay ≠ some 0 →
        e.schedule.Completes world) ∧
      (c.Idle → ¬ c.StopsByItself → c.maxCumulativeDelay ≠ some 0 →
        ¬ e.schedule.Completes world) ∧
      ∀ {α ε : Type} (effect : Nat → Call α ε) (runner : Runner α ε) (session : Session)
        (driver : Driver), let r : Run Sources α ε Unit α :=
          ⟨.last (.retrying .all), e.schedule.policy, effect, runner, session, world⟩
        (∀ i, ∃ error, r.outcome i = .error error) →
          (∀ n, (r.upTo driver n).cycle.session.cancelled = false) →
            ((∃ d, r.Ends driver d) ↔ e.schedule.Completes world) := by
  refine ⟨_, _, build_of_valid hvalid streams sources, fun world => ⟨?_, ?_, ?_, ?_⟩⟩
  · exact c.completes_expr_iff _ world
  · intro hbudget hfloor hlimit
    rw [completes_expr_iff]
    by_cases hstops : c.StopsByItself
    · exact Or.inl hstops
    · exact Or.inr (c.spendsBudget_of_floor _ hstops hfloor hlimit hbudget world)
  · intro hidle hstops hbudget
    rw [completes_expr_iff]
    exact not_or.mpr ⟨hstops, hidle.not_spendsBudget hstops hbudget _ world⟩
  · intro α ε effect runner session driver r hfails hnever
    have hdecision : ∀ i, r.decision i =
        (c.expr (c.addSource streams sources).1).schedule.decisionAt r.world i :=
      fun i => Schedule.policy_decisionAt _ world _ i
    refine Run.exists_ends_iff_completes hdecision (fun i => ?_) hnever
    obtain ⟨error, herror⟩ := hfails i
    rw [Run.Accepts, herror]
    trivial

/-- A limit on the sum of equal delays bounds a run. -/
theorem build_completes_iff_spaced :
    let c := (ofBackoff (.spaced 30)).withMaxCumulativeDelay 100
    let streams : SeedStream := fun seed _ => seed
    let sources : Sources := .ofSeedsAndScripts streams [] []
    c.validate = .ok () ∧ ∃ e built, c.build streams sources = .ok (e, built) ∧
      ∀ world, e.schedule.Completes world := by
  intro c streams sources
  have hvalid : c.validate = .ok () := rfl
  obtain ⟨e, built, hbuild, hall⟩ := build_completes_iff c hvalid streams sources
  exact ⟨hvalid, e, built, hbuild, fun world => (hall world).2.1 rfl (by decide) (by decide)⟩

/-- A limit on the sum of delays bounds nothing if there are no delays: this configuration passes
its checks, but its schedule never completes. -/
theorem validate_accepts_endless :
    let c := (ofBackoff .forever).withMaxCumulativeDelay 1000
    c.validate = .ok () ∧ ∀ streams sources, ∃ e built, c.build streams sources = .ok (e, built) ∧
      ∀ world, ¬ e.schedule.Completes world := by
  intro c
  have hvalid : c.validate = .ok () := rfl
  have hstops : ¬ c.StopsByItself := by
    rintro (h | ⟨delays, h, -⟩)
    · exact Bool.false_ne_true h
    · exact nomatch h
  have hidle : c.Idle := Or.inr ⟨trivial, fun _ h => nomatch h⟩
  refine ⟨hvalid, fun streams sources => ⟨_, _, build_of_valid hvalid streams sources, ?_⟩⟩
  intro world
  rw [completes_expr_iff]
  exact not_or.mpr ⟨hstops, hidle.not_spendsBudget hstops (by decide) _ world⟩

end Config

end Cadence
