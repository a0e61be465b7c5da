import Cadence.Proofs.Run.Ending
import Cadence.Proofs.Schedule.Lockstep

/-!
# Runs in lockstep

Runs that differ only in their schedules, and whose schedules go in lockstep, cannot be told apart:
whichever way they are driven, and whether the effect, the observer, the sleeper or somebody outside
cancels them, the same happens in both at any time. So schedules in lockstep are interchangeable.

## Main definitions

* `Cycle.Level`, `Done.Level`, `Task.Level` — two runs have come to the same point
* `Run.Alike` — two runs cannot be told apart
* `Schedule.Interchangeable` — no run and no dry run can tell two schedules apart

## Main results

* `Policy.Lockstep.alike` — runs over policies in lockstep are alike
* `Schedule.Lockstep.interchangeable` — schedules in lockstep are interchangeable
-/

namespace Cadence

variable {σ α ε τ β : Type} {p q : Policy σ α ε} {plan : Plan α ε τ β} {effect : Nat → Call α ε}
  {R : Context → p.State → q.State → Prop}

/-- Two runs over different policies stand at the same point between two turns: all is the same but
for the states of the policies, which are related or not there. -/
inductive Cycle.Level (R : Context → p.State → q.State → Prop) :
    Cycle (⟨p, plan, effect⟩ : Job σ α ε τ β) →
      Cycle (⟨q, plan, effect⟩ : Job σ α ε τ β) → Prop where
  | mk {state : Option p.State} {state' : Option q.State} {context : Context}
    (attempt calls : Nat) (kept : τ) (session : Session) (world : σ)
    (rel : Option.Rel (R context) state state') :
    Level R ⟨state, context, attempt, calls, kept, session, world⟩
      ⟨state', context, attempt, calls, kept, session, world⟩

/-- The same was done in two runs, and they stand at the same point. -/
structure Done.Level {ρ : Type} (R : Context → p.State → q.State → Prop)
    (d : Done (⟨p, plan, effect⟩ : Job σ α ε τ β) ρ)
    (d' : Done (⟨q, plan, effect⟩ : Job σ α ε τ β) ρ) : Prop where
  /-- The same has happened. -/
  trace : d.trace = d'.trace
  /-- The same came of it. -/
  value : d.value = d'.value
  /-- The runs stand at the same point. -/
  cycle : d.cycle.Level R d'.cycle

/-- Two tasks have come to the same point. -/
structure Task.Level (R : Context → p.State → q.State → Prop)
    (t : Task (⟨p, plan, effect⟩ : Job σ α ε τ β))
    (t' : Task (⟨q, plan, effect⟩ : Job σ α ε τ β)) : Prop where
  /-- The same is to be done next. -/
  phase : t.phase = t'.phase
  /-- The runs stand at the same point. -/
  cycle : t.cycle.Level R t'.cycle

/-! ### One turn -/

namespace Cycle.Level

variable {c : Cycle (⟨p, plan, effect⟩ : Job σ α ε τ β)}
  {c' : Cycle (⟨q, plan, effect⟩ : Job σ α ε τ β)}

theorem session_eq (h : c.Level R c') : c.session = c'.session := by
  cases h
  rfl

theorem calls_eq (h : c.Level R c') : c.calls = c'.calls := by
  cases h
  rfl

/-- The decision on an outcome. -/
theorem decide (hstep : p.Lockstep q R) (runner : Runner α ε) (outcome : Except ε α)
    (h : c.Level R c') : (c.decide runner outcome).Level R (c'.decide runner outcome) := by
  obtain ⟨attempt, calls, kept, session, world, hrel⟩ := h
  simp only [Cycle.decide]
  by_cases haccepts : plan.accepts outcome = true
  · rw [if_pos haccepts, if_pos haccepts]
    cases hrel with
    | none => exact ⟨rfl, rfl, .mk _ _ _ _ _ .none⟩
    | @some x y hR =>
      rename_i context
      have hagree := hstep.step context x y outcome world hR
      dsimp only
      generalize p.step x context outcome world = made at hagree
      generalize q.step y context outcome world = other at hagree
      obtain ⟨decision, x, world⟩ := made
      obtain ⟨_, y, _⟩ := other
      obtain ⟨rfl, rfl, hnext⟩ := hagree
      refine ⟨rfl, rfl, .mk _ _ _ _ _ ?_⟩
      cases hcontinues : decision.continues with
      | false => exact .none
      | true => exact .some (hnext hcontinues)
  · rw [if_neg haccepts, if_neg haccepts]
    exact ⟨rfl, rfl, .mk _ _ _ _ _ hrel⟩

/-- A call of the effect. -/
theorem call (hstep : p.Lockstep q R) (runner : Runner α ε) (h : c.Level R c') :
    (c.call runner).Level R (c'.call runner) := by
  obtain ⟨attempt, calls, kept, session, world, hrel⟩ := h
  have hcounted : Cycle.Level R (_ : Cycle (⟨p, plan, effect⟩ : Job σ α ε τ β)) _ :=
    .mk attempt (calls + 1) kept (session.cancelIf (effect calls).cancels) world hrel
  have hdecided := hcounted.decide hstep runner (effect calls).outcome
  simp only [Cycle.call]
  generalize Cycle.decide runner (effect calls).outcome _ = made at hdecided
  generalize Cycle.decide runner (effect calls).outcome _ = other at hdecided
  obtain ⟨trace, decision, cycle⟩ := made
  obtain ⟨_, _, cycle'⟩ := other
  obtain ⟨rfl, rfl, hcycle⟩ := hdecided
  dsimp only
  cases plan.absorb kept (effect calls).outcome decision.isComplete with
  | stops result => exact ⟨rfl, rfl, hcycle⟩
  | goesOn kept =>
    cases hcycle with
    | mk _ _ _ _ _ hrel => exact ⟨rfl, rfl, .mk _ _ _ _ _ hrel⟩

/-- A sleep. -/
theorem sleep (runner : Runner α ε) (delay : Duration) (h : c.Level R c') :
    (c.sleep runner delay).Level R (c'.sleep runner delay) := by
  obtain ⟨attempt, calls, kept, session, world, hrel⟩ := h
  simp only [Cycle.sleep]
  cases (runner.sleeper.sleep delay (runner.outside.sleep calls) session).1 with
  | false => exact ⟨rfl, rfl, .mk _ _ _ _ _ hrel⟩
  | true => exact ⟨rfl, rfl, .mk _ _ _ _ _ hrel⟩

/-- The check before a call. -/
theorem checked (runner : Runner α ε) (h : c.Level R c') :
    (c.checked runner).Level R (c'.checked runner) := by
  obtain ⟨attempt, calls, kept, session, world, hrel⟩ := h
  exact .mk _ _ _ _ _ hrel

theorem stop (h : c.Level R c') : c.stop.Level R c'.stop := by
  obtain ⟨attempt, calls, kept, session, world, hrel⟩ := h
  exact ⟨rfl, rfl, .mk _ _ _ _ _ hrel⟩

/-- A turn. -/
theorem turn (hstep : p.Lockstep q R) (runner : Runner α ε) (h : c.Level R c') :
    (c.turn runner).Level R (c'.turn runner) := by
  have hchecked := h.checked runner
  simp only [Cycle.turn]
  generalize c.checked runner = c at hchecked
  generalize c'.checked runner = c' at hchecked
  have hstopped := hchecked.stop
  have hcalled := hchecked.call hstep runner
  simp only [← hchecked.session_eq, ← hstopped.trace, ← hstopped.value, ← hcalled.trace,
    ← hcalled.value]
  by_cases hcancelled : c.session.cancelled = true
  · rw [if_pos hcancelled, if_pos hcancelled]
    exact ⟨rfl, rfl, hstopped.cycle⟩
  · rw [if_neg hcancelled, if_neg hcancelled]
    cases (c.call runner).value with
    | inl result => exact ⟨rfl, rfl, hcalled.cycle⟩
    | inr delay =>
      have hslept := hcalled.cycle.sleep runner delay
      exact ⟨congrArg (_ ++ ·) hslept.trace, hslept.value, hslept.cycle⟩

/-! ### Whole runs -/

/-- Any number of turns. -/
theorem drive (hstep : p.Lockstep q R) (runner : Runner α ε) (n : Nat) (h : c.Level R c') :
    (c.drive runner n).Level R (c'.drive runner n) := by
  induction n generalizing c c' with
  | zero => exact ⟨rfl, rfl, h⟩
  | succ n ih =>
    have hturned := h.turn hstep runner
    simp only [Cycle.drive, ← hturned.trace, ← hturned.value]
    cases (c.turn runner).value with
    | some result => exact ⟨rfl, rfl, hturned.cycle⟩
    | none =>
      have hrest := ih hturned.cycle
      exact ⟨congrArg (_ ++ ·) hrest.trace, hrest.value, hrest.cycle⟩

end Cycle.Level

namespace Task.Level

variable {t : Task (⟨p, plan, effect⟩ : Job σ α ε τ β)}
  {t' : Task (⟨q, plan, effect⟩ : Job σ α ε τ β)}

/-- A poll. -/
theorem poll (hstep : p.Lockstep q R) (runner : Runner α ε) (pace : Pace) (h : t.Level R t') :
    (t.poll runner pace).1 = (t'.poll runner pace).1 ∧
      (t.poll runner pace).2.Level R (t'.poll runner pace).2 := by
  obtain ⟨phase, c⟩ := t
  obtain ⟨_, c'⟩ := t'
  obtain ⟨rfl, hc⟩ := h
  change c.Level R c' at hc
  cases phase with
  | finished result => exact ⟨rfl, rfl, hc⟩
  | turning =>
    have hchecked := hc.checked runner
    simp only [Task.poll]
    generalize c.checked runner = c at hchecked
    generalize c'.checked runner = c' at hchecked
    have hstopped := hchecked.stop
    simp only [← hchecked.session_eq, ← hchecked.calls_eq, ← hstopped.trace, ← hstopped.value]
    by_cases hcancelled : c.session.cancelled = true
    · rw [if_pos hcancelled, if_pos hcancelled]
      exact ⟨rfl, rfl, hstopped.cycle⟩
    · rw [if_neg hcancelled, if_neg hcancelled]
      exact ⟨rfl, rfl, hchecked⟩
  | calling pending =>
    cases pending with
    | succ pending => exact ⟨rfl, rfl, hc⟩
    | zero =>
      have hcalled := hc.call hstep runner
      simp only [Task.poll, ← hcalled.trace, ← hcalled.value, ← hcalled.cycle.calls_eq]
      cases (c.call runner).value with
      | inl result => exact ⟨rfl, rfl, hcalled.cycle⟩
      | inr delay => exact ⟨rfl, rfl, hcalled.cycle⟩
  | sleeping delay pending =>
    have hslept := hc.sleep runner delay
    simp only [Task.poll, ← hc.session_eq, ← hslept.trace, ← hslept.value]
    split
    · exact ⟨rfl, rfl, hc⟩
    · cases (c.sleep runner delay).value with
      | some result => exact ⟨rfl, rfl, hslept.cycle⟩
      | none => exact ⟨rfl, rfl, hslept.cycle⟩

/-- Any number of polls. -/
theorem after (hstep : p.Lockstep q R) (runner : Runner α ε) (pace : Pace) (n : Nat)
    (h : t.Level R t') :
    (Task.after runner pace n t).1 = (Task.after runner pace n t').1 ∧
      (Task.after runner pace n t).2.Level R (Task.after runner pace n t').2 := by
  induction n generalizing t t' with
  | zero => exact ⟨rfl, h⟩
  | succ n ih =>
    obtain ⟨hmade, hpolled⟩ := h.poll hstep runner pace
    obtain ⟨hrest, hlevel⟩ := ih hpolled
    simp only [Task.after]
    rw [hmade, hrest]
    exact ⟨rfl, hlevel⟩

end Task.Level

/-! ### Alike -/

/-- Two runs cannot be told apart: at any time, the same has happened in both, the same came of it,
and they have left the session and the world the same. -/
structure Run.Alike (r r' : Run σ α ε τ β) : Prop where
  /-- The same has happened. -/
  trace : ∀ driver n, (r.upTo driver n).trace = (r'.upTo driver n).trace
  /-- The same came of it. -/
  value : ∀ driver n, (r.upTo driver n).value = (r'.upTo driver n).value
  /-- The session is the same. -/
  session : ∀ driver n, (r.upTo driver n).cycle.session = (r'.upTo driver n).cycle.session
  /-- The world is the same. -/
  world : ∀ driver n, (r.upTo driver n).cycle.world = (r'.upTo driver n).cycle.world

/-- **Runs over policies in lockstep are alike.** -/
theorem Policy.Lockstep.alike (h : p.Lockstep q R) (op : Operation α ε τ β)
    (effect : Nat → Call α ε) (runner : Runner α ε) (session : Session) (world : σ) :
    Run.Alike ⟨op, p, effect, runner, session, world⟩ ⟨op, q, effect, runner, session, world⟩ := by
  have hbegin : Cycle.Level R
      ((⟨p, op.plan, effect⟩ : Job σ α ε τ β).begin session world)
      ((⟨q, op.plan, effect⟩ : Job σ α ε τ β).begin session world) :=
    .mk _ _ _ _ _ (.some h.start)
  have hlevel : ∀ driver n, Done.Level R
      (Run.upTo ⟨op, p, effect, runner, session, world⟩ driver n)
      (Run.upTo ⟨op, q, effect, runner, session, world⟩ driver n) := by
    intro driver n
    cases driver with
    | blocking => exact hbegin.drive h runner n
    | polled pace =>
      have hturning : Task.Level R ⟨.turning, _⟩ ⟨.turning, _⟩ := ⟨rfl, hbegin⟩
      obtain ⟨htrace, htask⟩ := hturning.after h runner pace n
      simp only [Run.upTo, Task.run_eq_after]
      exact ⟨htrace, congrArg Phase.result? htask.phase, htask.cycle⟩
  have hworld : ∀ {c : Cycle (⟨p, op.plan, effect⟩ : Job σ α ε τ β)}
      {c' : Cycle (⟨q, op.plan, effect⟩ : Job σ α ε τ β)}, c.Level R c' → c.world = c'.world := by
    rintro _ _ ⟨⟩
    rfl
  exact {
    trace := fun driver n => (hlevel driver n).trace
    value := fun driver n => (hlevel driver n).value
    session := fun driver n => (hlevel driver n).cycle.session_eq
    world := fun driver n => hworld (hlevel driver n).cycle }

/-- Two schedules are interchangeable: neither a dry run nor a run can tell them apart, whether
outcomes are tested by a gate or not. -/
structure Schedule.Interchangeable (s t : Schedule σ) : Prop where
  /-- Their dry runs make the same decisions. -/
  decisions : ∀ world n,
    ((s.dryRun world).decisions n).1 = ((t.dryRun world).decisions n).1
  /-- Their dry runs come to the same context. -/
  context : ∀ world n,
    ((s.dryRun world).decisions n).2.context = ((t.dryRun world).decisions n).2.context
  /-- Their dry runs leave the same world. -/
  world : ∀ world n,
    ((s.dryRun world).decisions n).2.world = ((t.dryRun world).decisions n).2.world
  /-- Their runs are alike. -/
  runs : ∀ {α ε τ β : Type} (op : Operation α ε τ β) (effect : Nat → Call α ε)
    (runner : Runner α ε) (session : Session) (world : σ),
    Run.Alike ⟨op, s.policy, effect, runner, session, world⟩
      ⟨op, t.policy, effect, runner, session, world⟩
  /-- Their runs behind a gate are alike. -/
  gated : ∀ {α ε τ β : Type} (test : Except ε α → Bool) (wanted : Bool) (op : Operation α ε τ β)
    (effect : Nat → Call α ε) (runner : Runner α ε) (session : Session) (world : σ),
    Run.Alike ⟨op, s.gated test wanted, effect, runner, session, world⟩
      ⟨op, t.gated test wanted, effect, runner, session, world⟩

/-- **Schedules in lockstep are interchangeable.** -/
theorem Schedule.Lockstep.interchangeable {s t : Schedule σ}
    {R : Context → s.State → t.State → Prop} (h : s.Lockstep t R) : s.Interchangeable t where
  decisions world n := (h.decisions world n).1
  context world n := (h.decisions world n).2.context
  world world n := (h.decisions world n).2.world
  runs := h.policy.alike
  gated test wanted := (h.gated test wanted).alike

end Cadence
