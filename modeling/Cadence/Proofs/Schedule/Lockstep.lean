import Cadence.Policy
import Cadence.Proofs.Course

/-!
# Schedules in lockstep

Two schedules can make the same decisions without having the same states. To see that they do, it is
enough to relate their states, in the context in which they are, and to look at one step: from
related states it must decide the same and leave the same world, and if the run goes on the states
must be related again. Everything that holds of whole runs follows from that.

## Main definitions

* `Step.Agree` — two steps decide the same
* `Schedule.Lockstep`, `Policy.Lockstep` — a relation that every step keeps
* `DryRun.Level` — two dry runs have come to the same point

## Main results

* `Schedule.Lockstep.policy`, `Schedule.Lockstep.gated` — as policies they go in lockstep as well
* `Schedule.Lockstep.decisions` — their dry runs make the same decisions
-/

namespace Cadence

variable {σ α ε : Type}

/-- Two steps decide the same and leave the same world, and the states after them are related unless
the work is complete. -/
structure Step.Agree {τ υ : Type} (R : τ → υ → Prop) (a : Step τ σ) (b : Step υ σ) : Prop where
  /-- They decide the same. -/
  decision : a.decision = b.decision
  /-- They leave the same world. -/
  world : a.world = b.world
  /-- If the run goes on, it does so from related states. -/
  state : a.decision.continues = true → R a.state b.state

/-- A relation between the states of two schedules holds of fresh runs and is kept by each step, and
related states decide the same. -/
structure Schedule.Lockstep (s t : Schedule σ) (R : Context → s.State → t.State → Prop) : Prop where
  /-- Fresh states are related. -/
  start : R .initial s.start t.start
  /-- A step keeps the relation. -/
  step : ∀ context x y world, R context x y →
    (s.step x context world).Agree (R (context.next (s.step x context world).decision))
      (t.step y context world)

/-- The same of two policies. -/
structure Policy.Lockstep (p q : Policy σ α ε) (R : Context → p.State → q.State → Prop) : Prop where
  /-- Fresh states are related. -/
  start : R .initial p.start q.start
  /-- A step keeps the relation, whatever the outcome is. -/
  step : ∀ context x y outcome world, R context x y →
    (p.step x context outcome world).Agree
      (R (context.next (p.step x context outcome world).decision))
      (q.step y context outcome world)

namespace Schedule.Lockstep

variable {s t : Schedule σ} {R : Context → s.State → t.State → Prop}

/-! ### As policies -/

theorem policy (h : s.Lockstep t R) : (s.policy : Policy σ α ε).Lockstep t.policy R where
  start := h.start
  step context x y _ world := h.step context x y world

/-- Behind the same gate, schedules in lockstep stay so: where the gate closes, both are
complete. -/
theorem gated (h : s.Lockstep t R) (test : Except ε α → Bool) (wanted : Bool) :
    (s.gated test wanted).Lockstep (t.gated test wanted) R where
  start := h.start
  step context x y outcome world hR := by
    simp only [Schedule.gated]
    by_cases htest : (test outcome == wanted) = true
    · rw [if_pos htest, if_pos htest]
      exact h.step context x y world hR
    · rw [if_neg htest, if_neg htest]
      exact ⟨rfl, rfl, fun hcontinues => absurd hcontinues Bool.false_ne_true⟩

end Schedule.Lockstep

/-! ### Dry runs -/

namespace DryRun

variable {s t : Schedule σ} {R : Context → s.State → t.State → Prop}

/-- Two dry runs have come to the same point: both have ended, or their states are related. -/
structure Level (R : Context → s.State → t.State → Prop) (r : DryRun s) (r' : DryRun t) : Prop where
  /-- Their states are related, if they have not ended. -/
  state : Option.Rel (R r.context) r.state r'.state
  /-- Their contexts are the same. -/
  context : r.context = r'.context
  /-- Their worlds are the same. -/
  world : r.world = r'.world

/-- One more decision. -/
theorem Level.next (hstep : s.Lockstep t R) {r : DryRun s} {r' : DryRun t} (h : Level R r r') :
    r.next.1 = r'.next.1 ∧ Level R r.next.2 r'.next.2 := by
  obtain ⟨state, context, world⟩ := r
  obtain ⟨state', _, _⟩ := r'
  obtain ⟨hstate, rfl, rfl⟩ := h
  cases hstate with
  | none => exact ⟨rfl, .none, rfl, rfl⟩
  | @some x y hR =>
    have hagree := hstep.step context x y world hR
    simp only [DryRun.next]
    generalize s.step x context world = made at hagree
    generalize t.step y context world = other at hagree
    obtain ⟨decision, x, world⟩ := made
    obtain ⟨_, y, _⟩ := other
    obtain ⟨rfl, rfl, hnext⟩ := hagree
    refine ⟨rfl, ?_, rfl, rfl⟩
    cases hcontinues : decision.continues with
    | false => exact .none
    | true => exact .some (hnext hcontinues)

/-- What is seen of the next decisions. -/
theorem Level.collect {β : Type} (hstep : s.Lockstep t R) (view : Decision → Option β) (n : Nat)
    {r : DryRun s} {r' : DryRun t} (h : Level R r r') :
    (r.collect view n).1 = (r'.collect view n).1 ∧
      Level R (r.collect view n).2 (r'.collect view n).2 := by
  induction n generalizing r r' with
  | zero => exact ⟨rfl, h⟩
  | succ n ih =>
    obtain ⟨hmade, hnext⟩ := h.next hstep
    simp only [DryRun.collect]
    generalize r.next = made at hmade hnext
    generalize r'.next = other at hmade hnext
    obtain ⟨decision, r⟩ := made
    obtain ⟨_, r'⟩ := other
    obtain rfl := hmade
    cases decision with
    | none => exact ⟨rfl, hnext⟩
    | some decision =>
      dsimp only at hnext ⊢
      cases view decision with
      | none => exact ⟨rfl, hnext⟩
      | some b =>
        obtain ⟨hrest, hlevel⟩ := ih hnext
        exact ⟨congrArg (b :: ·) hrest, hlevel⟩

end DryRun

/-- **Dry runs of schedules in lockstep** make the same decisions and come to the same point. -/
theorem Schedule.Lockstep.decisions {s t : Schedule σ} {R : Context → s.State → t.State → Prop}
    (h : s.Lockstep t R) (world : σ) (n : Nat) :
    ((s.dryRun world).decisions n).1 = ((t.dryRun world).decisions n).1 ∧
      DryRun.Level R ((s.dryRun world).decisions n).2 ((t.dryRun world).decisions n).2 :=
  DryRun.Level.collect h some n ⟨.some h.start, rfl, rfl⟩

end Cadence
