import Cadence.Proofs.Config.Completion
import Cadence.Proofs.Schedule.Cutoff

/-!
# The bounds of a configuration

A configuration bounds the number of runs, each delay and the sum of the delays, and may let the
second run follow at once. Its schedule keeps all these bounds at the same time, whatever is drawn,
because of the order in which the pattern of delays is changed: a random time is added before a
delay is cut down, the second run follows at once in the place of a delay that was cut down already,
and the delays are added up last.

## Scope

Nothing is assumed of the sources: a configuration is taken together with any functions that draw
and read clocks, in any world. Decisions are counted up to `maxCount` only, so a list of delays that
is longer than that never comes to its end and bounds nothing: `Config.durations_exceeded`.

## Main definitions

* `Config.Exhausted` — a configuration allows no more decisions that continue
* `Config.Allows` — what it allows to be decided, without the limit on the sum of the delays
* `Config.course`, `Config.unlimitedCourse` — its decisions with that limit and without it
* `Config.StopsAfter` — it has a reason to be complete
* `Config.KeepsBounds` — all its bounds at once

## Main results

* `Config.allows_jitter` and the lemmas beside it — what each change makes of what is allowed
* `Config.allows_withoutBudget` — a configuration decides what it allows
* `Config.build_keepsBounds` — the schedule of a configuration keeps its bounds
* `Config.durations_exceeded` — but not that of a list of delays that is too long to be counted
-/

namespace Cadence

variable {σ : Type}

namespace Config

/-- Whether `n` decisions that continue use up the bounds of a configuration on their number. -/
def Exhausted (c : Config) (n : Nat) : Prop :=
  (∃ retries, c.maxRetries = some retries ∧ retries.toNat ≤ n) ∨
    ∃ delays, c.backoff = .durations delays ∧ delays.length ≤ n

/-- What a configuration allows to be decided in a context, apart from its limit on the sum of the
delays. -/
structure Allows (c : Config) (context : Context) (d : Decision) : Prop where
  /-- The decision is complete exactly if the number of decisions is used up. -/
  complete_iff : d = .complete ↔ c.Exhausted context.iteration
  /-- The delay is within the limit of each delay. -/
  delay_le : ∀ limit, c.maxDelay = some limit → d.delay ≤ .ofMillis limit.toNat
  /-- If the second run follows at once, the first decision has no delay of its own. -/
  first : c.noDelayOnFirstRetry = true → context.hasNotStarted = true →
    d = .runAgain ∨ d = .complete

variable {c : Config} {s : Schedule σ} {context : Context} {d : Decision}

theorem Exhausted.mono {m n : Nat} (h : c.Exhausted m) (hle : m ≤ n) : c.Exhausted n := by
  rcases h with ⟨retries, hsome, hcount⟩ | ⟨delays, hdelays, hlength⟩
  · exact Or.inl ⟨retries, hsome, Nat.le_trans hcount hle⟩
  · exact Or.inr ⟨delays, hdelays, Nat.le_trans hlength hle⟩

theorem exhausted_durations {delays : List UInt64} (hretries : c.maxRetries = none)
    (hbackoff : c.backoff = .durations delays) (n : Nat) :
    c.Exhausted n ↔ delays.length ≤ n := by
  constructor
  · rintro (⟨retries, hsome, -⟩ | ⟨delays', hdelays, hlength⟩)
    · exact nomatch hretries.symm.trans hsome
    · obtain rfl : delays = delays' := Backoff.durations.inj (hbackoff.symm.trans hdelays)
      exact hlength
  · exact fun hlength => Or.inr ⟨delays, hbackoff, hlength⟩

theorem not_exhausted (hretries : c.maxRetries = none)
    (hbackoff : ∀ delays, c.backoff ≠ .durations delays) (n : Nat) : ¬ c.Exhausted n := by
  rintro (⟨retries, hsome, -⟩ | ⟨delays, hdelays, -⟩)
  · exact nomatch hretries.symm.trans hsome
  · exact hbackoff delays hdelays

theorem exhausted_withMaxRetries (hretries : c.maxRetries = none) (retries : UInt32) (n : Nat) :
    (c.withMaxRetries retries).Exhausted n ↔ retries.toNat ≤ n ∨ c.Exhausted n := by
  constructor
  · rintro (⟨_, ⟨rfl⟩, hcount⟩ | hdelays)
    · exact Or.inl hcount
    · exact Or.inr (Or.inr hdelays)
  · rintro (hcount | ⟨retries', hsome, -⟩ | hdelays)
    · exact Or.inl ⟨retries, rfl, hcount⟩
    · exact nomatch hretries.symm.trans hsome
    · exact Or.inr hdelays

/-! ### One lemma for each change -/

/-- Without a limit of each delay, and unless the second run follows at once, only the number of
decisions matters. -/
theorem allows_of_complete_iff (hlimit : c.maxDelay = none) (hfirst : c.noDelayOnFirstRetry = false)
    (h : d = .complete ↔ c.Exhausted context.iteration) : c.Allows context d where
  complete_iff := h
  delay_le _ hsome := nomatch hlimit.symm.trans hsome
  first hsome := nomatch hfirst.symm.trans hsome

theorem allows_backoff (readings : Readings σ) (source : SourceName)
    (hretries : c.maxRetries = none) (hlimit : c.maxDelay = none)
    (hfirst : c.noDelayOnFirstRetry = false) :
    ((c.backoff.expr source).scheduleIn readings).Always c.Allows := by
  cases hbackoff : c.backoff with
  | durations delays =>
    refine Schedule.always_ofContext fun context => ?_
    refine allows_of_complete_iff hlimit hfirst ?_
    rw [exhausted_durations hretries hbackoff, List.getElem?_map]
    by_cases hlength : context.iteration < delays.length
    · rw [List.getElem?_eq_getElem hlength]
      exact iff_of_false (Decision.ne_complete rfl) (Nat.not_le_of_lt hlength)
    · rw [List.getElem?_eq_none (Nat.le_of_not_lt hlength)]
      exact iff_of_true rfl (Nat.le_of_not_lt hlength)
  | smoothDecorrelated median =>
    have hmore := not_exhausted hretries (by simp [hbackoff])
    refine ⟨fun _ => True, trivial, fun state context world _ => ⟨?_, trivial⟩⟩
    refine allows_of_complete_iff hlimit hfirst (iff_of_false ?_ (hmore context.iteration))
    simp only [Backoff.expr, Expr.scheduleIn, Schedule.smoothDecorrelated]
    split <;> exact Decision.ne_complete rfl
  | _ =>
    -- the step of every other pattern continues
    have hmore := not_exhausted hretries (by simp [hbackoff])
    refine ⟨fun _ => True, trivial, fun state context world _ => ⟨?_, trivial⟩⟩
    refine allows_of_complete_iff hlimit hfirst (iff_of_false ?_ (hmore context.iteration))
    exact Decision.ne_complete rfl

theorem allows_jitter (h : s.Always c.Allows) (hlimit : c.maxDelay = none)
    (hfirst : c.noDelayOnFirstRetry = false) (spread : Spread)
    (draw : Duration → Duration → σ → Duration × σ) : (s.jitter spread draw).Always c.Allows := by
  refine Schedule.Always.jitter h fun context d world hd => ?_
  refine allows_of_complete_iff hlimit hfirst ?_
  rw [Decision.mapDelay_eq_complete]
  exact hd.complete_iff

theorem allows_maxDelay (h : s.Always c.Allows) (hfirst : c.noDelayOnFirstRetry = false)
    (limit : UInt64) :
    (s.maxDelay (.ofMillis limit.toNat)).Always (c.withMaxDelay limit).Allows := by
  refine Schedule.Always.maxDelay h fun context d hd => ⟨?_, ?_, ?_⟩
  · rw [Decision.cap_eq_complete]
    exact hd.complete_iff
  · rintro _ ⟨rfl⟩
    rw [Decision.delay_cap, Duration.le_def, Duration.nanos_min]
    exact Nat.min_le_right _ _
  · exact fun hsome => nomatch hfirst.symm.trans hsome

theorem allows_noDelayOnFirstRetry (h : s.Always c.Allows) :
    s.noDelayOnFirstRetry.Always c.withNoDelayOnFirstRetry.Allows := by
  refine Schedule.Always.noDelayOnFirstRetry h fun context d hd => ?_
  by_cases hcond : (context.hasNotStarted && d.continues) = true
  · rw [if_pos hcond]
    refine ⟨?_, fun limit _ => Duration.zero_le _, fun _ _ => Or.inl rfl⟩
    refine iff_of_false (Decision.ne_complete rfl) fun hexhausted => ?_
    rw [hd.complete_iff.mpr hexhausted, Decision.continues_complete, Bool.and_false] at hcond
    exact Bool.false_ne_true hcond
  · rw [if_neg hcond]
    refine ⟨hd.complete_iff, hd.delay_le, fun _ hstart => Or.inr ?_⟩
    rw [hstart, Bool.true_and] at hcond
    exact Decision.continues_eq_false.mp (Bool.eq_false_iff.mpr hcond)

theorem allows_union_recurs (h : s.Always c.Allows) (hretries : c.maxRetries = none)
    (retries : UInt32) :
    (s.union (.recurs retries.toNat)).Always (c.withMaxRetries retries).Allows := by
  refine Schedule.Always.union_recurs h fun context d hd => ?_
  split <;> rename_i hcount
  · refine ⟨?_, hd.delay_le, hd.first⟩
    rw [exhausted_withMaxRetries hretries, or_iff_right (Nat.not_le_of_lt hcount)]
    exact hd.complete_iff
  · refine ⟨iff_of_true rfl ?_, fun limit _ => Duration.zero_le _, fun _ _ => Or.inr rfl⟩
    exact (exhausted_withMaxRetries hretries retries _).mpr (Or.inl (Nat.le_of_not_lt hcount))

/-! ### All changes -/

/-- A configuration with a pattern of delays, random times and a limit of each delay. -/
theorem allows_delaysExpr (c : Config) (readings : Readings σ) (source : SourceName)
    (hretries : c.maxRetries = none) (hfirst : c.noDelayOnFirstRetry = false) :
    ((c.delaysExpr source).scheduleIn readings).Always c.Allows := by
  obtain ⟨backoff, maxRetries, maxDelay, maxCumulativeDelay, jitter, first, seed⟩ := c
  let base : Config := ⟨backoff, maxRetries, none, maxCumulativeDelay, jitter, first, seed⟩
  have hbase : (((Expr.boxed (backoff.expr source)).changed
      (fun e jitter => .jitter e jitter.spread source) jitter).scheduleIn readings).Always
        base.Allows := by
    have hbackoff : ((Expr.boxed (backoff.expr source)).scheduleIn readings).Always base.Allows :=
      (allows_backoff (c := base) readings source hretries rfl hfirst).boxed
    cases jitter with
    | none => exact hbackoff
    | some jitter => exact (allows_jitter hbackoff rfl hfirst jitter.spread _).boxed
  cases maxDelay with
  | none => exact hbase
  | some limit => exact (allows_maxDelay hbase hfirst limit).boxed

/-- **What a configuration allows** is all that is decided without the limit on the sum of the
delays, whatever is drawn. -/
theorem allows_withoutBudget (c : Config) (readings : Readings σ) (source : SourceName) :
    ((c.withoutBudget.expr source).scheduleIn readings).Always c.Allows := by
  obtain ⟨backoff, maxRetries, maxDelay, maxCumulativeDelay, jitter, first, seed⟩ := c
  let delays : Config := ⟨backoff, none, maxDelay, maxCumulativeDelay, jitter, false, seed⟩
  let eager : Config := ⟨backoff, none, maxDelay, maxCumulativeDelay, jitter, first, seed⟩
  have hdelays := delays.allows_delaysExpr readings source rfl rfl
  have heager : ((if first then Expr.boxed (.noDelayOnFirstRetry (delays.delaysExpr source))
      else delays.delaysExpr source).scheduleIn readings).Always eager.Allows := by
    cases first with
    | false => exact hdelays
    | true => exact (allows_noDelayOnFirstRetry hdelays).boxed
  cases maxRetries with
  | none => exact heager
  | some retries => exact (allows_union_recurs heager rfl retries).boxed

/-! ### All bounds at once -/

/-- Whether a configuration gives a reason to stop after some decisions, when the next would be
`next` without the limit on the sum of the delays: the number of decisions is used up, or the delays
have reached the limit on their sum, or the next delay would carry them beyond it. -/
def StopsAfter (c : Config) (before : List Decision) (next : Decision) : Prop :=
  c.Exhausted (before.countP Decision.continues) ∨
    ∃ limit, c.maxCumulativeDelay = some limit ∧
      (limit.toNat * Duration.nanosPerMilli ≤ Decision.totalNanos before ∨
        (next.continues = true ∧
          limit.toNat * Duration.nanosPerMilli <
            Decision.totalNanos before + next.delay.nanos))

/-- The bounds of a configuration, kept by decisions. Without the limit on the sum of the delays
they would be `unlimited`. -/
structure KeepsBounds (c : Config) (unlimited : Nat → Decision) (ds : List Decision) : Prop where
  /-- No more decisions continue than there are runs after the first. -/
  retries : ∀ retries, c.maxRetries = some retries →
    ds.countP Decision.continues ≤ retries.toNat
  /-- No more decisions continue than there are delays in the list, if these can be counted. -/
  durations : ∀ delays, c.backoff = .durations delays → delays.length ≤ maxCount →
    ds.countP Decision.continues ≤ delays.length
  /-- Each delay, with what was added to it, is within the limit of each delay. -/
  delay : ∀ limit, c.maxDelay = some limit → ∀ d ∈ ds, d.delay ≤ .ofMillis limit.toNat
  /-- The exact sum of the delays is within the limit of the sum. -/
  total : ∀ limit, c.maxCumulativeDelay = some limit →
    Decision.totalNanos ds ≤ limit.toNat * Duration.nanosPerMilli
  /-- If the second run follows at once, the first decision has no delay of its own. -/
  first : c.noDelayOnFirstRetry = true → ∀ d ∈ ds.head?, d = .runAgain ∨ d = .complete
  /-- There is a reason for each decision that is complete. -/
  stops : ∀ k, ds[k]? = some .complete → c.StopsAfter (ds.take k) (unlimited k)

section Course

variable (c : Config) (readings : Readings σ) (source : SourceName) (world : σ)

/-- The decisions of a configuration over given sources. -/
def course (n : Nat) : Decision := ((c.expr source).scheduleIn readings).decisionAt world n

/-- The decisions of a configuration without the limit on the sum of the delays. -/
def unlimitedCourse (n : Nat) : Decision := c.withoutBudget.course readings source world n

/-- After decisions that continue, a configuration decides what it decides without the limit on the
sum of the delays, or it is cut off by that limit. -/
theorem course_eq_or_cutOffAt {n : Nat}
    (h : ∀ i < n, (c.course readings source world i).continues = true) :
    c.course readings source world n = c.unlimitedCourse readings source world n ∨
      (c.course readings source world n = .complete ∧
        ∃ limit, c.maxCumulativeDelay = some limit ∧
          ((c.withoutBudget.expr source).scheduleIn readings).CutOffAt (.ofMillis limit.toNat)
            world n) := by
  cases hbudget : c.maxCumulativeDelay with
  | none => exact Or.inl (by rw [unlimitedCourse, c.withoutBudget_eq_self hbudget])
  | some limit =>
    simp only [course, c.expr_of_maxCumulativeDelay source hbudget, Expr.scheduleIn,
      Schedule.decisionAt_boxed] at h ⊢
    rcases Schedule.decisionAt_eq_or_cutOffAt h with hsame | ⟨hcomplete, hcut⟩
    · exact Or.inl hsame
    · exact Or.inr ⟨hcomplete, limit, rfl, hcut⟩

theorem allows_unlimitedCourse (n : Nat) : ∃ context : Context,
    context.iteration = min n maxCount ∧ (n = 0 → context.hasNotStarted = true) ∧
      c.Allows context (c.unlimitedCourse readings source world n) := by
  refine ⟨_, Schedule.iteration_position .., ?_,
    Schedule.Always.decisionAt (c.allows_withoutBudget readings source) world n⟩
  rintro rfl
  rfl

/-- The exact sum of the delays is within the limit of the sum. -/
theorem totalNanos_course_le {limit : UInt64} (hlimit : c.maxCumulativeDelay = some limit)
    (n : Nat) : Decision.totalNanos ((List.range n).map (c.course readings source world)) ≤
      limit.toNat * Duration.nanosPerMilli := by
  have hcourse : c.course readings source world =
      (((c.withoutBudget.expr source).scheduleIn readings).maxCumulativeDelay
        (.ofMillis limit.toNat)).decisionAt world := by
    funext i
    rw [course, c.expr_of_maxCumulativeDelay source hlimit]
    exact Schedule.decisionAt_boxed _ world i
  rw [hcourse, ← Duration.nanos_ofMillis]
  exact (Schedule.within_map_decisionAt _ _ world n).totalNanos_le
    (Duration.ofMillis_lt_longest limit)

variable {c readings source world} {j : Nat}

section Upto

variable (h : ∀ i, i + 1 < j → (c.course readings source world i).continues = true)
include h

theorem continues_of_lt {i : Nat} (hi : i < j) :
    ∀ k < i, (c.course readings source world k).continues = true :=
  fun k hk => h k (Nat.lt_of_le_of_lt hk hi)

theorem unlimitedCourse_of_continues {i : Nat} (hi : i < j)
    (hcontinues : (c.course readings source world i).continues = true) :
    c.unlimitedCourse readings source world i = c.course readings source world i := by
  rcases c.course_eq_or_cutOffAt readings source world (continues_of_lt h hi) with
    hsame | ⟨hcomplete, -⟩
  · exact hsame.symm
  · exact absurd hcomplete (Decision.ne_complete hcontinues)

/-- A decision that continues is not one too many. -/
theorem lt_of_continues {bound : Nat} (hbound : bound ≤ maxCount)
    (hexhausted : ∀ n, bound ≤ n → c.Exhausted n) {i : Nat} (hi : i < j)
    (hcontinues : (c.course readings source world i).continues = true) : i < bound := by
  obtain ⟨context, hcount, -, hallows⟩ := c.allows_unlimitedCourse readings source world i
  refine Nat.lt_of_not_le fun hle => ?_
  have hmany : bound ≤ context.iteration := by
    rw [hcount]
    exact Nat.le_min.mpr ⟨hle, hbound⟩
  have hcomplete := hallows.complete_iff.mpr (hexhausted _ hmany)
  rw [unlimitedCourse_of_continues h hi hcontinues] at hcomplete
  exact Decision.ne_complete hcontinues hcomplete

theorem delay_course_le {limit : UInt64} (hlimit : c.maxDelay = some limit) {i : Nat} (hi : i < j) :
    (c.course readings source world i).delay ≤ .ofMillis limit.toNat := by
  obtain ⟨context, -, -, hallows⟩ := c.allows_unlimitedCourse readings source world i
  rcases c.course_eq_or_cutOffAt readings source world (continues_of_lt h hi) with
    hsame | ⟨hcomplete, -⟩
  · rw [hsame]
    exact hallows.delay_le limit hlimit
  · rw [hcomplete]
    exact Duration.zero_le _

theorem first_course (hfirst : c.noDelayOnFirstRetry = true) (hj : 0 < j) :
    c.course readings source world 0 = .runAgain ∨
      c.course readings source world 0 = .complete := by
  obtain ⟨context, -, hstart, hallows⟩ := c.allows_unlimitedCourse readings source world 0
  rcases c.course_eq_or_cutOffAt readings source world (continues_of_lt h hj) with
    hsame | ⟨hcomplete, -⟩
  · rw [hsame]
    exact hallows.first hfirst (hstart rfl)
  · exact Or.inr hcomplete

/-- There is a reason for a decision that is complete. -/
theorem stopsAfter_of_complete {k : Nat} (hk : k < j)
    (hcomplete : c.course readings source world k = .complete) :
    c.StopsAfter ((List.range k).map (c.course readings source world))
      (c.unlimitedCourse readings source world k) := by
  have hbefore := continues_of_lt h hk
  rcases c.course_eq_or_cutOffAt readings source world hbefore with hsame | ⟨-, limit, hlimit, hcut⟩
  · obtain ⟨context, hcount, -, hallows⟩ := c.allows_unlimitedCourse readings source world k
    have hexhausted := hallows.complete_iff.mp (hsame.symm.trans hcomplete)
    refine Or.inl ?_
    rw [Decision.countP_continues_eq hbefore]
    exact hexhausted.mono (hcount.trans_le (Nat.min_le_left k maxCount))
  · have hsame : (List.range k).map (c.unlimitedCourse readings source world) =
        (List.range k).map (c.course readings source world) := by
      refine List.map_congr_left fun i hi => ?_
      have hik := List.mem_range.mp hi
      exact unlimitedCourse_of_continues h (Nat.lt_trans hik hk) (hbefore i hik)
    have hspent : ((c.withoutBudget.expr source).scheduleIn readings).spent world k =
        Decision.totalNanos ((List.range k).map (c.course readings source world)) := by
      rw [← Schedule.totalNanos_map_decisionAt, ← hsame]
      rfl
    refine Or.inr ⟨limit, hlimit, ?_⟩
    rw [← hspent, ← Duration.nanos_ofMillis]
    exact hcut.le_spent_or_lt

/-- **All bounds at once**, kept by the decisions of a course up to the first that is complete. -/
theorem keepsBounds_map_course :
    c.KeepsBounds (c.unlimitedCourse readings source world)
      ((List.range j).map (c.course readings source world)) where
  retries retries hsome := by
    refine Decision.countP_continues_le fun i hi => lt_of_continues h ?_ ?_ hi
    · exact Nat.le_of_lt_succ retries.toNat_lt
    · exact fun n hn => Or.inl ⟨retries, hsome, hn⟩
  durations delays hdelays hlength := by
    refine Decision.countP_continues_le fun i hi => lt_of_continues h hlength ?_ hi
    exact fun n hn => Or.inr ⟨delays, hdelays, hn⟩
  delay limit hlimit := by
    rintro d hd
    obtain ⟨i, hi, rfl⟩ := List.mem_map.mp hd
    exact delay_course_le h hlimit (List.mem_range.mp hi)
  total limit hlimit := c.totalNanos_course_le readings source world hlimit j
  first hfirst := by
    intro d hd
    rw [List.head?_map, List.head?_range] at hd
    split at hd
    · exact nomatch hd
    · obtain rfl : c.course readings source world 0 = d := Option.some.inj hd
      exact first_course h hfirst (Nat.pos_of_ne_zero (by assumption))
  stops k hk := by
    obtain ⟨hlength, hcomplete⟩ := List.getElem?_eq_some_iff.mp hk
    have hlt : k < j := by simpa using hlength
    rw [← List.map_take, List.take_range, Nat.min_eq_left (Nat.le_of_lt hlt)]
    refine stopsAfter_of_complete h hlt ?_
    rw [← hcomplete, List.getElem_map, List.getElem_range]

end Upto

end Course

/-! ### Configurations that pass their checks -/

/-- **The bounds of a configuration that passes its checks** are kept all at once, whatever is
drawn, in every dry run and at any time in every run. Its schedule is complete for no other
reason. -/
theorem build_keepsBounds (c : Config) (hvalid : c.validate = .ok ()) (streams : SeedStream)
    (sources : Sources) :
    ∃ e built, c.build streams sources = .ok (e, built) ∧
      e.scheduleIn Sources.readings = e.schedule ∧
      ∀ {σ : Type} (readings : Readings σ) (world : σ),
        let unlimited := c.unlimitedCourse readings (c.addSource streams sources).1 world
        (∀ n, c.KeepsBounds unlimited (((e.scheduleIn readings).dryRun world).decisions n).1) ∧
          ∀ {α ε τ β : Type} (r : Run σ α ε τ β), r.policy = (e.scheduleIn readings).policy →
            r.world = world → ∀ driver n,
              c.KeepsBounds unlimited (Happening.decisions (r.upTo driver n).trace) := by
  refine ⟨_, _, build_of_valid hvalid streams sources, Expr.scheduleIn_readings _, ?_⟩
  intro σ readings world unlimited
  constructor
  · intro n
    obtain ⟨m, -, hmade, hcontinues⟩ := DryRun.exists_decisions
      ((c.expr (c.addSource streams sources).1).scheduleIn readings) world n
    rw [hmade]
    exact keepsBounds_map_course hcontinues
  · intro α ε τ β r hpolicy hworld driver n
    obtain ⟨j, hmade, hcontinues⟩ := r.exists_decisions_upTo driver n
    rw [Run.decision_of_policy hpolicy, hworld] at hmade hcontinues
    rw [hmade]
    exact keepsBounds_map_course hcontinues

/-- Delays that grow are cut down to the limit of each, after a second run that follows at once. -/
theorem build_keepsBounds_eager :
    let delays := ((ofBackoff (.fibonacci 10)).withMaxDelay 25).withNoDelayOnFirstRetry
    let c := (delays.withMaxRetries 6).withMaxCumulativeDelay 60
    let streams : SeedStream := fun seed _ => seed
    let sources : Sources := .ofSeedsAndScripts streams [] []
    c.validate = .ok () ∧ ∃ e built, c.build streams sources = .ok (e, built) ∧
      ∀ world n, let ds := ((e.schedule.dryRun world).decisions n).1
        ds.countP Decision.continues ≤ 6 ∧ (∀ d ∈ ds, d.delay ≤ .ofMillis 25) ∧
          Decision.totalNanos ds ≤ 60 * Duration.nanosPerMilli := by
  intro delays c streams sources
  have hvalid : c.validate = .ok () := rfl
  obtain ⟨e, built, hbuild, hschedule, hall⟩ := build_keepsBounds c hvalid streams sources
  refine ⟨hvalid, e, built, hbuild, fun world n => ?_⟩
  have hbounds := (hall Sources.readings world).1 n
  rw [hschedule] at hbounds
  exact ⟨hbounds.retries 6 rfl, hbounds.delay 25 rfl, hbounds.total 60 rfl⟩

/-! ### A list of delays that is too long to be counted -/

/-- A configuration that only has a list of delays passes its checks unless the list is empty. -/
theorem validate_durations {delays : List UInt64} (h : delays ≠ []) :
    (ofBackoff (.durations delays)).validate = .ok () := by
  cases delays with
  | nil => exact absurd rfl h
  | cons delay rest => rfl

/-- **A list of delays that is longer than decisions are counted** bounds nothing: this
configuration passes its checks, but more decisions of its schedule continue than there are delays
in the list, and the schedule never completes. -/
theorem durations_exceeded :
    let delays := List.replicate 4294967296 (5 : UInt64)
    let c := ofBackoff (.durations delays)
    c.validate = .ok () ∧ ∀ streams sources, ∃ e built, c.build streams sources = .ok (e, built) ∧
      ∀ world, ¬ e.schedule.Completes world ∧ ∃ n,
        delays.length < (((e.schedule.dryRun world).decisions n).1).countP Decision.continues := by
  intro delays c
  have hlength : delays.length = 4294967296 := List.length_replicate
  have hnonempty : delays ≠ [] := fun hnil => by simp [hnil] at hlength
  have hvalid : c.validate = .ok () := validate_durations hnonempty
  have hstops : ¬ c.StopsByItself := by
    rintro (h | ⟨delays', hdelays, hcounted⟩)
    · exact Bool.false_ne_true h
    · obtain rfl : delays = delays' := Backoff.durations.inj hdelays
      rw [hlength] at hcounted
      exact absurd hcounted (by decide)
  refine ⟨hvalid, fun streams sources => ⟨_, _, build_of_valid hvalid streams sources, ?_⟩⟩
  intro world
  have hendless : (c.expr (c.addSource streams sources).1).schedule.Endless :=
    c.endless_withoutBudget _ hstops
  have hcontinues := Schedule.Always.decisionAt hendless world
  refine ⟨hendless.not_completes world, delays.length + 1, ?_⟩
  rw [DryRun.decisions_of_continues fun i _ => hcontinues i,
    Decision.countP_continues_eq fun i _ => hcontinues i]
  exact Nat.lt_succ_self _

end Config

end Cadence
