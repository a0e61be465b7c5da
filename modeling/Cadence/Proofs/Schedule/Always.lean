import Cadence.Proofs.Course
import Cadence.Schedule.Adjust
import Cadence.Schedule.Combine
import Cadence.Schedule.Decorrelated
import Cadence.Schedule.Simple

/-!
# What a schedule always decides

A schedule that is wrapped in another one is stepped in contexts that its own decisions have not
made: a limit or a random time changes the delays that the context adds up. So what is said of the
decisions of a schedule is said of every context and of every world, and an invariant of its states
carries it from step to step. In this form it passes through all wrappers.

## Main definitions

* `Schedule.Always` — what holds of all decisions of a schedule
* `Schedule.Endless`, `Schedule.CompleteFrom` — it never completes, or does from some decision on
* `Schedule.DelaysFrom`, `Schedule.Idle` — its delays have a lower bound, or are no time at all

## Main results

* `Schedule.Always.decisionAt` — what holds of all decisions holds of the course of a schedule
* `Schedule.Always.boxed` and the lemmas beside it — one for each wrapper
* `Schedule.Endless.not_completes`, `Schedule.CompleteFrom.completes` — what becomes of dry runs
-/

namespace Cadence

variable {σ : Type}

/-! ### Durations -/

namespace Duration

open Float.Model (UnpackedFloat Format)

theorem le_refl (d : Duration) : d ≤ d := Nat.le_refl _

theorem le_trans {a b c : Duration} (hab : a ≤ b) (hbc : b ≤ c) : a ≤ c := Nat.le_trans hab hbc

theorem not_le {a b : Duration} : ¬ a ≤ b ↔ b < a := Nat.not_le

theorem not_lt {a b : Duration} : ¬ a < b ↔ b ≤ a := Nat.not_lt

theorem zero_le (d : Duration) : 0 ≤ d := Nat.zero_le _

theorem le_add_right (a b : Duration) : a ≤ a + b := by
  rw [le_def, nanos_add]
  have ha := a.nanos_le_maxNanos
  omega

theorem le_add_left (a b : Duration) : a ≤ b + a := by
  rw [le_def, nanos_add]
  have ha := a.nanos_le_maxNanos
  omega

theorem zero_add (d : Duration) : 0 + d = d := by
  refine Duration.ext ?_
  rw [nanos_add, nanos_zero, Nat.zero_add]
  exact Nat.min_eq_left d.nanos_le_maxNanos

theorem add_zero (d : Duration) : d + 0 = d := by
  refine Duration.ext ?_
  rw [nanos_add, nanos_zero, Nat.add_zero]
  exact Nat.min_eq_left d.nanos_le_maxNanos

/-- Zero seconds, times any factor in floating point, are no time at all. The product may be zero
with either sign, or not a number. -/
theorem ofSecondsFloat_zero_mul (factor : UnpackedFloat) :
    ofSecondsFloat ⟨.pack (.mul .binary64 (.zero .positive) factor)⟩ = 0 := by
  cases factor with
  | notANumber => rfl
  | infinity sign => cases sign <;> rfl
  | zero sign => cases sign <;> rfl
  | finite sign m e h =>
    have hmul : UnpackedFloat.mul .binary64 (.zero .positive) (.finite sign m e h) =
        .zero (.positive * sign) := rfl
    rw [hmul]
    cases sign <;> rfl

theorem scale_zero (factor : Float) : (0 : Duration).scale factor = 0 := by
  have hseconds : (0 : Duration).toSecondsFloat.toModel.unpack = .zero .positive := rfl
  have hproduct : (0 : Duration).toSecondsFloat * factor =
      ⟨.pack (.mul .binary64 (.zero .positive) factor.toModel.unpack)⟩ := by
    rw [← hseconds]
    rfl
  rw [scale, hproduct, ofSecondsFloat_zero_mul]
  split <;> rfl

end Duration

/-! ### Changed decisions -/

namespace Decision

theorem delay_cap (limit : Duration) (d : Decision) : (d.cap limit).delay = min d.delay limit := by
  have hzero : (0 : Duration) = min 0 limit := (if_pos (Duration.zero_le limit)).symm
  cases d with
  | complete => exact hzero
  | runAgain => exact hzero
  | runAfter delay => rfl

theorem continues_cap (limit : Duration) (d : Decision) :
    (d.cap limit).continues = d.continues := by
  cases d <;> rfl

theorem continues_mapDelay (f : Duration → Duration) (d : Decision) :
    (d.mapDelay f).continues = d.continues := by
  cases d <;> rfl

theorem mapDelay_eq_complete {f : Duration → Duration} {d : Decision} :
    d.mapDelay f = complete ↔ d = complete := by
  rw [← continues_eq_false, continues_mapDelay, continues_eq_false]

theorem cap_eq_complete {limit : Duration} {d : Decision} :
    d.cap limit = complete ↔ d = complete := by
  rw [← continues_eq_false, continues_cap, continues_eq_false]

theorem delay_le_delay_mapDelay (added : Duration) (d : Decision) :
    d.delay ≤ (d.mapDelay (· + added)).delay := by
  cases d with
  | complete => exact Duration.le_refl 0
  | runAgain => exact Duration.zero_le _
  | runAfter delay => exact Duration.le_add_right delay added

@[simp] theorem union_complete_left (d : Decision) : union complete d = complete := by
  cases d <;> rfl

@[simp] theorem union_complete_right (d : Decision) : union d complete = complete := by
  cases d <;> rfl

@[simp] theorem union_runAgain_right (d : Decision) : union d runAgain = d := by
  cases d <;> rfl

end Decision

namespace Schedule

variable {s l r : Schedule σ} {P Q : Context → Decision → Prop}

/-- **What a schedule always decides**: in every context and in every world, the decision is as `Q`
says, as long as the states satisfy an invariant that they satisfy from the start. -/
def Always (s : Schedule σ) (Q : Context → Decision → Prop) : Prop :=
  ∃ I : s.State → Prop, I s.start ∧ ∀ state context world, I state →
    Q context (s.step state context world).decision ∧ I (s.step state context world).state

/-- What holds of all decisions of a schedule holds of those in its course. -/
theorem Always.decisionAt (h : s.Always Q) (world : σ) (n : Nat) :
    Q (s.position world n).context (s.decisionAt world n) := by
  obtain ⟨I, hstart, hstep⟩ := h
  have hstate : ∀ n, I (s.position world n).state := by
    intro n
    induction n with
    | zero => exact hstart
    | succ n ih => exact (hstep _ _ _ ih).2
  exact (hstep _ _ _ (hstate n)).1

theorem Always.mono (h : s.Always P) (hPQ : ∀ c d, P c d → Q c d) : s.Always Q := by
  obtain ⟨I, hstart, hstep⟩ := h
  refine ⟨I, hstart, ?_⟩
  intro state context world hI
  exact (hstep state context world hI).imp_left (hPQ context _)

/-- Of any decision nothing is said. -/
theorem always_true (s : Schedule σ) : s.Always fun _ _ => True :=
  ⟨fun _ => True, trivial, fun _ _ _ _ => ⟨trivial, trivial⟩⟩

theorem always_ofContext {decide : Context → Decision} (h : ∀ c, Q c (decide c)) :
    (ofContext decide : Schedule σ).Always Q :=
  ⟨fun _ => True, trivial, fun _ context _ _ => ⟨h context, trivial⟩⟩

/-! ### One lemma for each wrapper -/

theorem Always.boxed (h : s.Always Q) : s.boxed.Always Q := by
  obtain ⟨I, hstart, hstep⟩ := h
  refine ⟨fun place => ∃ state, place = some state ∧ I state, ⟨_, rfl, hstart⟩, ?_⟩
  rintro _ context world ⟨state, rfl, hI⟩
  exact ⟨(hstep state context world hI).1, _, rfl, (hstep state context world hI).2⟩

theorem Always.maxDelay {limit : Duration} (h : s.Always P)
    (hcap : ∀ c d, P c d → Q c (d.cap limit)) : (s.maxDelay limit).Always Q := by
  obtain ⟨I, hstart, hstep⟩ := h
  refine ⟨I, hstart, ?_⟩
  intro state context world hI
  exact (hstep state context world hI).imp_left (hcap context _)

theorem jitter_step (s : Schedule σ) (spread : Spread)
    (draw : Duration → Duration → σ → Duration × σ) (state : s.State) (context : Context)
    (world : σ) :
    let made := s.step state context world
    let jittered := (s.jitter spread draw).step state context world
    let ends := spread.ends made.decision.delay
    jittered.decision = made.decision.mapDelay (· + (draw ends.1 ends.2 made.world).1) ∧
      jittered.state = made.state := by
  simp only [Schedule.jitter]
  generalize s.step state context world = made
  obtain ⟨decision, state, world⟩ := made
  cases decision <;> exact ⟨rfl, rfl⟩

theorem Always.jitter {spread : Spread} {draw : Duration → Duration → σ → Duration × σ}
    (h : s.Always P) (hadd : ∀ c d world, P c d → Q c (d.mapDelay
      (· + (draw (spread.ends d.delay).1 (spread.ends d.delay).2 world).1))) :
    (s.jitter spread draw).Always Q := by
  obtain ⟨I, hstart, hstep⟩ := h
  refine ⟨I, hstart, ?_⟩
  intro state context world hI
  obtain ⟨hdecision, hstate⟩ := jitter_step s spread draw state context world
  have hmade := hstep state context world hI
  refine ⟨?_, (congrArg I hstate).mpr hmade.2⟩
  rw [hdecision]
  exact hadd context _ _ hmade.1

theorem Always.noDelayOnFirstRetry (h : s.Always P)
    (hfirst : ∀ c d, P c d → Q c (if c.hasNotStarted && d.continues then .runAgain else d)) :
    s.noDelayOnFirstRetry.Always Q := by
  obtain ⟨I, hstart, hstep⟩ := h
  refine ⟨I, hstart, ?_⟩
  intro state context world hI
  have hmade := hstep state context world hI
  have hdecision := hfirst context _ hmade.1
  simp only [Schedule.noDelayOnFirstRetry]
  split <;> rename_i hcond
  · rw [if_pos hcond] at hdecision
    exact ⟨hdecision, hmade.2⟩
  · rw [if_neg hcond] at hdecision
    exact ⟨hdecision, hmade.2⟩

theorem Always.union {P' : Context → Decision → Prop} (hl : l.Always P) (hr : r.Always P')
    (hmerge : ∀ c d d', P c d → P' c d' → Q c (.union d d')) : (l.union r).Always Q := by
  obtain ⟨I, hstart, hstep⟩ := hl
  obtain ⟨J, hstart', hstep'⟩ := hr
  refine ⟨fun state => I state.1 ∧ J state.2, ⟨hstart, hstart'⟩, ?_⟩
  rintro state context world ⟨hI, hJ⟩
  have hleft := hstep state.1 context world hI
  have hright := hstep' state.2 context (l.step state.1 context world).world hJ
  exact ⟨hmerge context _ _ hleft.1 hright.1, hleft.2, hright.2⟩

theorem Always.union_left (h : l.Always P) (hmerge : ∀ c d d', P c d → Q c (.union d d')) :
    (l.union r).Always Q :=
  Always.union h r.always_true fun c d d' hd _ => hmerge c d d' hd

theorem Always.union_right (h : r.Always P) (hmerge : ∀ c d d', P c d' → Q c (.union d d')) :
    (l.union r).Always Q :=
  Always.union l.always_true h fun c d d' _ hd' => hmerge c d d' hd'

/-- A bound on the number of runs leaves a decision as it is until they were made. -/
theorem Always.union_recurs {times : Nat} (h : s.Always P)
    (hcount : ∀ c d, P c d → Q c (if c.iteration < times then d else .complete)) :
    (s.union (recurs times)).Always Q := by
  have hrecurs : (recurs times : Schedule σ).Always fun c d =>
      d = if c.iteration < times then .runAgain else .complete := always_ofContext fun _ => rfl
  refine Always.union h hrecurs ?_
  rintro c d _ hd rfl
  have hd := hcount c d hd
  split <;> rename_i hlt
  · rw [if_pos hlt] at hd
    rwa [Decision.union_runAgain_right]
  · rw [if_neg hlt] at hd
    rwa [Decision.union_complete_right]

/-! ### Schedules that never complete -/

/-- A schedule never completes. -/
def Endless (s : Schedule σ) : Prop := s.Always fun _ d => d.continues = true

theorem Endless.boxed (h : s.Endless) : s.boxed.Endless := Always.boxed h

theorem Endless.maxDelay (h : s.Endless) (limit : Duration) : (s.maxDelay limit).Endless :=
  Always.maxDelay h fun _ d hd => by rw [Decision.continues_cap, hd]

theorem Endless.jitter (h : s.Endless) (spread : Spread)
    (draw : Duration → Duration → σ → Duration × σ) : (s.jitter spread draw).Endless :=
  Always.jitter h fun _ d _ hd => by rw [Decision.continues_mapDelay, hd]

theorem Endless.noDelayOnFirstRetry (h : s.Endless) : s.noDelayOnFirstRetry.Endless :=
  Always.noDelayOnFirstRetry h fun c d hd => by split <;> first | rfl | exact hd

theorem Endless.not_completes (h : s.Endless) (world : σ) : ¬ s.Completes world := by
  rw [completes_iff_not_forall]
  exact not_not_intro (Always.decisionAt h world)

/-! ### Schedules that complete -/

/-- A schedule is complete as soon as `n` decisions were counted. -/
def CompleteFrom (s : Schedule σ) (n : Nat) : Prop :=
  s.Always fun c d => n ≤ c.iteration → d = .complete

theorem completeFrom_recurs (times : Nat) : (recurs times : Schedule σ).CompleteFrom times :=
  always_ofContext fun _ hn => if_neg (Nat.not_lt_of_le hn)

theorem completeFrom_fromDurations (delays : List Duration) :
    (fromDurations delays : Schedule σ).CompleteFrom delays.length := by
  refine always_ofContext ?_
  intro c hn
  rw [List.getElem?_eq_none hn]

namespace CompleteFrom

variable {n : Nat}

theorem boxed (h : s.CompleteFrom n) : s.boxed.CompleteFrom n := Always.boxed h

theorem maxDelay (h : s.CompleteFrom n) (limit : Duration) : (s.maxDelay limit).CompleteFrom n :=
  Always.maxDelay h fun _ _ hd hn => by rw [hd hn]; rfl

theorem jitter (h : s.CompleteFrom n) (spread : Spread)
    (draw : Duration → Duration → σ → Duration × σ) : (s.jitter spread draw).CompleteFrom n :=
  Always.jitter h fun _ _ _ hd hn => by rw [hd hn]; rfl

theorem noDelayOnFirstRetry (h : s.CompleteFrom n) : s.noDelayOnFirstRetry.CompleteFrom n := by
  refine Always.noDelayOnFirstRetry h ?_
  intro c d hd hn
  rw [hd hn, Decision.continues_complete, Bool.and_false]
  rfl

theorem union_left (h : l.CompleteFrom n) : (l.union r).CompleteFrom n :=
  Always.union_left h fun _ d d' hd hn => by rw [hd hn, Decision.union_complete_left]

theorem union_right (h : r.CompleteFrom n) : (l.union r).CompleteFrom n :=
  Always.union_right h fun _ d d' hd hn => by rw [hd hn, Decision.union_complete_right]

/-- **The course of a schedule that completes.** Decisions are only counted up to a limit, so the
number from which the schedule is complete must not be beyond that. -/
theorem completes (h : s.CompleteFrom n) (hn : n ≤ maxCount) (world : σ) : s.Completes world := by
  rw [completes_iff_not_forall]
  intro hall
  have hcount : n ≤ (s.position world n).context.iteration := by
    rw [iteration_position]
    exact Nat.le_min.mpr ⟨Nat.le_refl n, hn⟩
  have hcontinues := hall n
  rw [Always.decisionAt h world n hcount] at hcontinues
  exact Bool.false_ne_true hcontinues

end CompleteFrom

/-! ### Schedules whose delays add up -/

/-- Every delay of a schedule is at least `least`, apart from the first perhaps. -/
def DelaysFrom (s : Schedule σ) (least : Duration) : Prop :=
  s.Always fun c d => c.hasNotStarted = false → least ≤ d.delay

theorem delaysFrom_zero (s : Schedule σ) : s.DelaysFrom 0 :=
  ⟨fun _ => True, trivial, fun _ _ _ _ => ⟨fun _ => Duration.zero_le _, trivial⟩⟩

theorem delaysFrom_spaced (delay : Duration) : (spaced delay : Schedule σ).DelaysFrom delay :=
  always_ofContext fun _ _ => Duration.le_refl delay

theorem delaysFrom_linear (seed : Duration) (factor : Float) :
    (linear seed factor : Schedule σ).DelaysFrom seed :=
  always_ofContext fun _ _ => Duration.le_add_right seed _

/-- In the sequence of Fibonacci every delay is at least the one before, so all are at least the
first. -/
theorem delaysFrom_fibonacci (seed : Duration) :
    (fibonacci seed : Schedule σ).DelaysFrom seed := by
  refine ⟨fun state => seed ≤ state.2, Duration.le_refl seed, fun state _ _ hstate => ?_⟩
  exact ⟨fun _ => hstate, Duration.le_trans hstate (Duration.le_add_left state.2 state.1)⟩

namespace DelaysFrom

variable {least : Duration}

theorem boxed (h : s.DelaysFrom least) : s.boxed.DelaysFrom least := Always.boxed h

theorem mono {least' : Duration} (h : s.DelaysFrom least) (hle : least' ≤ least) :
    s.DelaysFrom least' :=
  Always.mono h fun _ _ hd hc => Duration.le_trans hle (hd hc)

theorem maxDelay (h : s.DelaysFrom least) {limit : Duration} (hlimit : least ≤ limit) :
    (s.maxDelay limit).DelaysFrom least := by
  refine Always.maxDelay h ?_
  intro c d hd hc
  rw [Decision.delay_cap, Duration.le_def, Duration.nanos_min]
  exact Nat.le_min.mpr ⟨hd hc, hlimit⟩

theorem jitter (h : s.DelaysFrom least) (spread : Spread)
    (draw : Duration → Duration → σ → Duration × σ) : (s.jitter spread draw).DelaysFrom least :=
  Always.jitter h fun _ d _ hd hc =>
    Duration.le_trans (hd hc) (Decision.delay_le_delay_mapDelay _ d)

theorem noDelayOnFirstRetry (h : s.DelaysFrom least) :
    s.noDelayOnFirstRetry.DelaysFrom least := by
  refine Always.noDelayOnFirstRetry h ?_
  intro c d hd hc
  rw [hc, Bool.false_and]
  exact hd hc

end DelaysFrom

/-! ### Schedules without delays -/

/-- No delay of a schedule takes any time. -/
def Idle (s : Schedule σ) : Prop := s.Always fun _ d => d.delay = 0

theorem idle_forever : (forever : Schedule σ).Idle := always_ofContext fun _ => rfl

theorem idle_spaced : (spaced 0 : Schedule σ).Idle := always_ofContext fun _ => rfl

theorem idle_linear (factor : Float) : (linear 0 factor : Schedule σ).Idle := by
  refine always_ofContext ?_
  intro c
  show linearDelay 0 factor c.iteration = 0
  rw [linearDelay, Duration.scale_zero, Duration.zero_add]

theorem idle_exponential (factor : Float) : (exponential 0 factor : Schedule σ).Idle :=
  always_ofContext fun _ => Duration.scale_zero _

theorem idle_fibonacci : (fibonacci 0 : Schedule σ).Idle := by
  refine ⟨fun state => state = (0, 0), rfl, ?_⟩
  rintro _ _ _ rfl
  exact ⟨rfl, rfl⟩

theorem idle_decorrelated {draw : Duration → Duration → σ → Duration × σ}
    (hdraw : ∀ world, (draw 0 0 world).1 = 0) : (decorrelated 0 0 draw).Idle := by
  refine ⟨fun previous : Duration => previous = 0, rfl, ?_⟩
  rintro _ _ world rfl
  have hhigh : max (min (max 0 0) ((0 : Duration).scale 3.0)) (min 0 0) = (0 : Duration) := by
    rw [Duration.scale_zero]
    rfl
  have hdrawn : ((decorrelated 0 0 draw).step (0 : Duration) default world).state =
      (0 : Duration) := by
    show (draw (min 0 0) (max (min (max 0 0) ((0 : Duration).scale 3.0)) (min 0 0)) world).1 = 0
    rw [hhigh]
    exact hdraw world
  exact ⟨hdrawn, hdrawn⟩

theorem idle_maxDelay (s : Schedule σ) : (s.maxDelay 0).Idle := by
  refine Always.maxDelay s.always_true fun _ d _ => ?_
  refine Duration.ext ?_
  rw [Decision.delay_cap, Duration.nanos_min, Duration.nanos_zero, Nat.min_zero]

namespace Idle

theorem boxed (h : s.Idle) : s.boxed.Idle := Always.boxed h

theorem maxDelay (h : s.Idle) (limit : Duration) : (s.maxDelay limit).Idle :=
  Always.maxDelay h fun _ d hd => by
    rw [Decision.delay_cap, hd]
    exact if_pos (Duration.zero_le limit)

/-- Random times from a range without extent at zero take no time either. -/
theorem jitter (h : s.Idle) {spread : Spread} {draw : Duration → Duration → σ → Duration × σ}
    (hspread : spread.ends 0 = (0, 0)) (hdraw : ∀ world, (draw 0 0 world).1 = 0) :
    (s.jitter spread draw).Idle := by
  refine Always.jitter h fun _ d world hd => ?_
  rw [hd, hspread, hdraw]
  cases d with
  | complete => rfl
  | runAgain => rfl
  | runAfter delay => rw [show delay = 0 from hd]; rfl

theorem noDelayOnFirstRetry (h : s.Idle) : s.noDelayOnFirstRetry.Idle :=
  Always.noDelayOnFirstRetry h fun c d hd => by split <;> first | rfl | exact hd

end Idle

end Schedule

end Cadence
