import Cadence.Policy
import Cadence.Schedule.DryRun

/-!
# The course of a schedule

What a schedule decides when it is stepped again and again, each time in the context its own
decisions have made: the course of a schedule in a world, and the course of a policy over a stream
of outcomes. Nothing is run here and nothing stops, also not after a decision that is complete, so
a course is a plain sequence. Dry runs and runs are both compared with it.

## Main definitions

* `Position` — where a machine stands between two decisions
* `Policy.position`, `Policy.decisionAt` — the course of a policy over a stream of outcomes
* `Schedule.position`, `Schedule.decisionAt` — the course of a schedule
* `Schedule.positionIn`, `Schedule.decisionIn` — what a schedule decides when its contexts are given
* `Schedule.CompletesAt` — which decision is the first that is complete
* `Schedule.Completes` — whether a dry run reaches such a decision
* `Policy.recorded` — a policy that keeps a record of its steps in the world

## Main results

* `Schedule.policy_decisionAt` — a schedule pays no attention to outcomes
* `DryRun.decisions_of_continues`, `DryRun.decisions_of_completesAt` — the decisions of a dry run
  are those of the course, up to the first that is complete
* `DryRun.delays_of_continues`, `DryRun.delays_of_completesAt` — and its delays are theirs
* `DryRun.complete_mem_decisions_iff`, `Schedule.completes_iff_exists_completesAt` — a dry run
  reaches the end that its course has
-/

namespace Cadence

variable {σ α ε : Type}

/-! ### The first number without a property -/

/-- Either all numbers below `n` have a property, or one of them is the first that does not. -/
theorem forall_or_exists_first (P : Nat → Prop) [DecidablePred P] (n : Nat) :
    (∀ i < n, P i) ∨ ∃ k < n, (∀ i < k, P i) ∧ ¬ P k := by
  induction n with
  | zero => exact Or.inl fun i hi => absurd hi (Nat.not_lt_zero i)
  | succ n ih =>
    rcases ih with h | ⟨k, hk, hfirst⟩
    · by_cases hn : P n
      · refine Or.inl ?_
        intro i hi
        rcases Nat.lt_succ_iff_lt_or_eq.mp hi with hi | rfl
        · exact h i hi
        · exact hn
      · exact Or.inr ⟨n, Nat.lt_succ_self n, h, hn⟩
    · exact Or.inr ⟨k, Nat.lt_succ_of_lt hk, hfirst⟩

/-- There is only one first number without a property. -/
theorem eq_of_first {P : Nat → Prop} {j k : Nat} (hj : ∀ i < j, P i) (hj' : ¬ P j)
    (hk : ∀ i < k, P i) (hk' : ¬ P k) : j = k := by
  rcases Nat.lt_trichotomy j k with h | h | h
  · exact absurd (hk j h) hj'
  · exact h
  · exact absurd (hj k h) hk'

/-! ### Positions -/

/-- Where a machine with states `τ` stands in a world `σ` between two decisions. -/
structure Position (τ σ : Type) where
  /-- The state of the machine. -/
  state : τ
  /-- The context of its next decision. -/
  context : Context
  /-- The world. -/
  world : σ

/-- Where a machine stands after a step that it made in a context. -/
def Step.next {τ : Type} (made : Step τ σ) (context : Context) : Position τ σ :=
  ⟨made.state, context.next made.decision, made.world⟩

namespace Decision

@[simp] theorem continues_complete : complete.continues = false := rfl

@[simp] theorem continues_runAgain : runAgain.continues = true := rfl

@[simp] theorem continues_runAfter (delay : Duration) : (runAfter delay).continues = true := rfl

@[simp] theorem continues_eq_false {d : Decision} : d.continues = false ↔ d = complete := by
  cases d <;> simp [continues, isComplete]

theorem continues_or_complete (d : Decision) : d.continues = true ∨ d = complete := by
  cases d <;> simp

theorem ne_complete {d : Decision} (h : d.continues = true) : d ≠ complete := by
  rintro rfl
  exact Bool.false_ne_true h

theorem isComplete_eq_not_continues (d : Decision) : d.isComplete = !d.continues := by
  simp [continues]

/-- A decision that continues has a delay. -/
theorem delay?_of_continues {d : Decision} (h : d.continues = true) : d.delay? = some d.delay := by
  cases d with
  | complete => simp at h
  | runAgain => rfl
  | runAfter delay => rfl

end Decision

/-! ### The course of a policy -/

namespace Policy

variable (p : Policy σ α ε) (outcomes : Nat → Except ε α) (world : σ)

/-- Where a policy stands when it has decided on the first `n` outcomes of a stream. -/
def position : Nat → Position p.State σ
  | 0 => ⟨p.start, .initial, world⟩
  | n + 1 =>
    let pos := position n
    (p.step pos.state pos.context (outcomes n) pos.world).next pos.context

/-- The step of a policy on outcome `n` of a stream, the first being outcome zero. -/
def stepAt (n : Nat) : Step p.State σ :=
  let pos := p.position outcomes world n
  p.step pos.state pos.context (outcomes n) pos.world

/-- The decision of a policy on outcome `n` of a stream. -/
def decisionAt (n : Nat) : Decision := (p.stepAt outcomes world n).decision

theorem position_succ (n : Nat) :
    p.position outcomes world (n + 1) =
      (p.stepAt outcomes world n).next (p.position outcomes world n).context := rfl

/-- The number of decisions in the context, as far as it is counted. -/
theorem iteration_position (n : Nat) :
    (p.position outcomes world n).context.iteration = min n maxCount := by
  induction n with
  | zero => rfl
  | succ n ih =>
    show countUp (p.position outcomes world n).context.iteration = _
    rw [ih, countUp]
    omega

/-- The policy with a record in its world of the outcomes it was stepped on. -/
def recorded : Policy (σ × List (Except ε α)) α ε where
  State := p.State
  start := p.start
  step state context outcome world :=
    let made := p.step state context outcome world.1
    ⟨made.decision, made.state, (made.world, world.2 ++ [outcome])⟩

/-- Keeping a record changes nothing in the course of a policy, and the record holds one outcome
for each step. -/
theorem position_recorded (n : Nat) :
    p.recorded.position outcomes (world, []) n =
      let pos := p.position outcomes world n
      ⟨pos.state, pos.context, (pos.world, (List.range n).map outcomes)⟩ := by
  induction n with
  | zero => rfl
  | succ n ih =>
    rw [position_succ, position_succ, List.range_succ, List.map_append]
    simp only [stepAt, ih]
    rfl

theorem decisionAt_recorded (n : Nat) :
    p.recorded.decisionAt outcomes (world, []) n = p.decisionAt outcomes world n := by
  simp only [decisionAt, stepAt, position_recorded]
  rfl

end Policy

/-! ### The course of a schedule -/

namespace Schedule

variable (s : Schedule σ) (world : σ)

/-- Where a schedule stands after `n` decisions. -/
def position : Nat → Position s.State σ
  | 0 => ⟨s.start, .initial, world⟩
  | n + 1 =>
    let pos := position n
    (s.step pos.state pos.context pos.world).next pos.context

/-- Step `n` of a schedule, the first being step zero. -/
def stepAt (n : Nat) : Step s.State σ :=
  let pos := s.position world n
  s.step pos.state pos.context pos.world

/-- Decision `n` of a schedule. -/
def decisionAt (n : Nat) : Decision := (s.stepAt world n).decision

theorem position_succ (n : Nat) :
    s.position world (n + 1) = (s.stepAt world n).next (s.position world n).context := rfl

theorem policy_position (outcomes : Nat → Except ε α) (n : Nat) :
    (s.policy : Policy σ α ε).position outcomes world n = s.position world n := by
  induction n with
  | zero => rfl
  | succ n ih =>
    rw [position_succ, Policy.position_succ, Policy.stepAt, stepAt, ih]
    rfl

/-- The number of decisions in the context, as far as it is counted. -/
theorem iteration_position (n : Nat) : (s.position world n).context.iteration = min n maxCount := by
  rw [← s.policy_position (α := Unit) (ε := Unit) world fun _ => .ok ()]
  exact Policy.iteration_position ..

/-- As a policy, a schedule decides the same whatever the outcomes are. -/
theorem policy_decisionAt (outcomes : Nat → Except ε α) (n : Nat) :
    (s.policy : Policy σ α ε).decisionAt outcomes world n = s.decisionAt world n := by
  rw [Policy.decisionAt, decisionAt, Policy.stepAt, stepAt, policy_position]
  rfl

/-! ### In given contexts -/

/-- Where a schedule stands after `n` steps when the context of each step is given. -/
def positionIn (contexts : Nat → Context) : Nat → Position s.State σ
  | 0 => ⟨s.start, contexts 0, world⟩
  | n + 1 =>
    let pos := positionIn contexts n
    let made := s.step pos.state pos.context pos.world
    ⟨made.state, contexts (n + 1), made.world⟩

/-- Step `n` of a schedule when the contexts are given. -/
def stepIn (contexts : Nat → Context) (n : Nat) : Step s.State σ :=
  let pos := s.positionIn world contexts n
  s.step pos.state pos.context pos.world

/-- Decision `n` of a schedule when the contexts are given. -/
def decisionIn (contexts : Nat → Context) (n : Nat) : Decision :=
  (s.stepIn world contexts n).decision

theorem positionIn_succ (contexts : Nat → Context) (n : Nat) :
    s.positionIn world contexts (n + 1) =
      ⟨(s.stepIn world contexts n).state, contexts (n + 1), (s.stepIn world contexts n).world⟩ :=
  rfl

theorem context_positionIn (contexts : Nat → Context) (n : Nat) :
    (s.positionIn world contexts n).context = contexts n := by
  cases n with
  | zero => rfl
  | succ n => rfl

/-- In the contexts of its course a schedule makes the steps of its course. -/
theorem positionIn_course (n : Nat) :
    s.positionIn world (fun i => (s.position world i).context) n = s.position world n := by
  induction n with
  | zero => rfl
  | succ n ih =>
    rw [positionIn_succ, stepIn, ih]
    rfl

theorem decisionIn_course (n : Nat) :
    s.decisionIn world (fun i => (s.position world i).context) n = s.decisionAt world n := by
  rw [decisionIn, stepIn, positionIn_course]
  rfl

/-! ### The end of a course -/

/-- Decision `k` is the first of a schedule that is complete. -/
def CompletesAt (k : Nat) : Prop :=
  (∀ i < k, (s.decisionAt world i).continues = true) ∧ s.decisionAt world k = .complete

variable {s world}

theorem CompletesAt.unique {j k : Nat} (hj : s.CompletesAt world j) (hk : s.CompletesAt world k) :
    j = k :=
  eq_of_first hj.1 (by simp [hj.2]) hk.1 (by simp [hk.2])

/-- Either all of the first `n` decisions continue, or one of them is the first that is complete. -/
theorem continues_or_completesAt (s : Schedule σ) (world : σ) (n : Nat) :
    (∀ i < n, (s.decisionAt world i).continues = true) ∨ ∃ k < n, s.CompletesAt world k := by
  refine (forall_or_exists_first (fun i => (s.decisionAt world i).continues = true) n).imp_right ?_
  rintro ⟨k, hk, hfirst, hlast⟩
  exact ⟨k, hk, hfirst, by simpa using hlast⟩

/-! ### Dry runs -/

/-- The dry run of a schedule that stands at a position. -/
def dryRunFrom (s : Schedule σ) (pos : Position s.State σ) : DryRun s :=
  ⟨some pos.state, pos.context, pos.world⟩

end Schedule

namespace DryRun

variable {s : Schedule σ} {world : σ} {β : Type}

/-- What is seen in `m` decisions and then in `n` more, if the first `m` are all seen. -/
theorem collect_add {view : Decision → Option β} {m : Nat} {r : DryRun s}
    (h : (r.collect view m).1.length = m) (n : Nat) :
    r.collect view (m + n) =
      ((r.collect view m).1 ++ ((r.collect view m).2.collect view n).1,
        ((r.collect view m).2.collect view n).2) := by
  induction m generalizing r with
  | zero => simp [collect]
  | succ m ih =>
    rw [show m + 1 + n = m + n + 1 by omega]
    simp only [collect] at h ⊢
    split at h
    · simp at h
    · split at h
      · simp at h
      · rw [ih (by simpa using h)]
        simp only [List.cons_append]

/-- The dry run that has come to the end: its schedule was complete after `n` decisions. -/
def ended (s : Schedule σ) (world : σ) (n : Nat) : DryRun s :=
  ⟨none, (s.position world n).context, (s.position world n).world⟩

/-- One decision more of a dry run, and of the course. -/
theorem next_dryRunFrom (s : Schedule σ) (world : σ) (n : Nat) :
    (s.dryRunFrom (s.position world n)).next =
      (some (s.decisionAt world n),
        ⟨if (s.decisionAt world n).continues then some (s.stepAt world n).state else none,
          (s.position world (n + 1)).context, (s.position world (n + 1)).world⟩) :=
  rfl

theorem next_of_continues {n : Nat} (h : (s.decisionAt world n).continues = true) :
    (s.dryRunFrom (s.position world n)).next =
      (some (s.decisionAt world n), s.dryRunFrom (s.position world (n + 1))) := by
  rw [next_dryRunFrom, if_pos h]
  rfl

theorem next_of_complete {n : Nat} (h : s.decisionAt world n = .complete) :
    (s.dryRunFrom (s.position world n)).next = (some .complete, ended s world (n + 1)) := by
  rw [next_dryRunFrom, h]
  rfl

theorem collect_ended (view : Decision → Option β) (n k : Nat) :
    (ended s world n).collect view k = ([], ended s world n) := by
  cases k <;> rfl

/-- As long as a schedule continues, a dry run follows its course. Whatever `view` shows of a
decision that continues, it shows of each. -/
theorem collect_of_continues {view : Decision → Option β} {f : Decision → β}
    (hview : ∀ d : Decision, d.continues = true → view d = some (f d)) {n : Nat}
    (h : ∀ i < n, (s.decisionAt world i).continues = true) :
    (s.dryRun world).collect view n =
      ((List.range n).map fun i => f (s.decisionAt world i),
        s.dryRunFrom (s.position world n)) := by
  induction n with
  | zero => rfl
  | succ n ih =>
    have hn := h n (Nat.lt_succ_self n)
    have hlast : (s.dryRunFrom (s.position world n)).collect view 1 =
        ([f (s.decisionAt world n)], s.dryRunFrom (s.position world (n + 1))) := by
      simp only [collect, next_of_continues hn, hview _ hn]
    have hfirst := ih fun i hi => h i (Nat.lt_succ_of_lt hi)
    rw [collect_add (by rw [hfirst]; simp) 1, hfirst, hlast, List.range_succ, List.map_append]
    rfl

/-- The decisions of a dry run are those of the course, as long as they continue. -/
theorem decisions_of_continues {n : Nat} (h : ∀ i < n, (s.decisionAt world i).continues = true) :
    (s.dryRun world).decisions n =
      ((List.range n).map (s.decisionAt world), s.dryRunFrom (s.position world n)) :=
  collect_of_continues (f := id) (fun _ _ => rfl) h

theorem delays_of_continues {n : Nat} (h : ∀ i < n, (s.decisionAt world i).continues = true) :
    (s.dryRun world).delays n =
      ((List.range n).map fun i => (s.decisionAt world i).delay,
        s.dryRunFrom (s.position world n)) :=
  collect_of_continues (fun _ => Decision.delay?_of_continues) h

/-- With the first decision that is complete, which is still shown, a dry run ends. -/
theorem decisions_of_completesAt {k n : Nat} (h : s.CompletesAt world k) (hn : k < n) :
    (s.dryRun world).decisions n =
      ((List.range (k + 1)).map (s.decisionAt world), ended s world (k + 1)) := by
  obtain ⟨m, rfl⟩ := Nat.exists_eq_add_of_lt hn
  have hfirst := decisions_of_continues h.1
  have hlast : (s.dryRunFrom (s.position world k)).decisions (m + 1) =
      ([s.decisionAt world k], ended s world (k + 1)) := by
    simp only [decisions, collect, next_of_complete h.2, collect_ended, h.2]
  rw [decisions] at hfirst hlast ⊢
  rw [Nat.add_assoc, collect_add (by rw [hfirst]; simp), hfirst, hlast, List.range_succ,
    List.map_append]
  rfl

/-- The decision that is complete has no delay, so the delays are those of all others. -/
theorem delays_of_completesAt {k n : Nat} (h : s.CompletesAt world k) (hn : k < n) :
    (s.dryRun world).delays n =
      ((List.range k).map fun i => (s.decisionAt world i).delay, ended s world (k + 1)) := by
  obtain ⟨m, rfl⟩ := Nat.exists_eq_add_of_lt hn
  have hfirst := delays_of_continues h.1
  have hlast : (s.dryRunFrom (s.position world k)).delays (m + 1) =
      ([], ended s world (k + 1)) := by
    simp only [delays, collect, next_of_complete h.2, Decision.delay?]
  rw [delays] at hfirst hlast ⊢
  rw [Nat.add_assoc, collect_add (by rw [hfirst]; simp), hfirst, hlast, List.append_nil]

/-- The decisions of a dry run are the first of the course of its schedule, and all of them continue
except for the last one perhaps. -/
theorem exists_decisions (s : Schedule σ) (world : σ) (n : Nat) :
    ∃ m ≤ n, ((s.dryRun world).decisions n).1 = (List.range m).map (s.decisionAt world) ∧
      ∀ i, i + 1 < m → (s.decisionAt world i).continues = true := by
  rcases s.continues_or_completesAt world n with hall | ⟨k, hk, hcompletes⟩
  · rw [decisions_of_continues hall]
    exact ⟨n, Nat.le_refl n, rfl, fun i hi => hall i (Nat.lt_of_succ_lt hi)⟩
  · rw [decisions_of_completesAt hcompletes hk]
    exact ⟨k + 1, hk, rfl, fun i hi => hcompletes.1 i (Nat.lt_of_succ_lt_succ hi)⟩

theorem length_decisions_le (s : Schedule σ) (world : σ) (n : Nat) :
    ((s.dryRun world).decisions n).1.length ≤ n := by
  obtain ⟨m, hm, hmade, -⟩ := exists_decisions s world n
  rw [hmade, List.length_map, List.length_range]
  exact hm

/-- The first decision that is complete is the last one of a dry run. -/
theorem length_decisions_le_of_completesAt {k : Nat} (h : s.CompletesAt world k) (n : Nat) :
    ((s.dryRun world).decisions n).1.length ≤ k + 1 := by
  obtain ⟨m, -, hmade, hcontinues⟩ := exists_decisions s world n
  rw [hmade, List.length_map, List.length_range]
  refine Nat.le_of_not_lt fun hlt => ?_
  exact Decision.ne_complete (hcontinues k hlt) h.2

/-- A dry run shows a decision that is complete exactly if its course comes to the first of these
in time. -/
theorem complete_mem_decisions_iff {n : Nat} :
    .complete ∈ ((s.dryRun world).decisions n).1 ↔ ∃ k < n, s.CompletesAt world k := by
  constructor
  · intro hmem
    rcases s.continues_or_completesAt world n with hall | hcompletes
    · rw [decisions_of_continues hall] at hmem
      obtain ⟨i, hi, hcomplete⟩ := List.mem_map.mp hmem
      exact absurd hcomplete (Decision.ne_complete (hall i (List.mem_range.mp hi)))
    · exact hcompletes
  · rintro ⟨k, hk, hcompletes⟩
    rw [decisions_of_completesAt hcompletes hk]
    exact List.mem_map.mpr ⟨k, List.mem_range.mpr (Nat.lt_succ_self k), hcompletes.2⟩

/-- A schedule that decides what another one decides in its dry run has the same dry run. -/
theorem decisions_eq_of_decisionAt {s t : Schedule σ} {world : σ} {n : Nat}
    (h : ∀ i < ((s.dryRun world).decisions n).1.length,
      t.decisionAt world i = s.decisionAt world i) :
    ((t.dryRun world).decisions n).1 = ((s.dryRun world).decisions n).1 := by
  rcases s.continues_or_completesAt world n with hall | ⟨k, hk, hcompletes⟩
  · simp only [decisions_of_continues hall, List.length_map, List.length_range] at h ⊢
    rw [decisions_of_continues fun i hi => by rw [h i hi]; exact hall i hi]
    exact List.map_congr_left fun i hi => h i (List.mem_range.mp hi)
  · simp only [decisions_of_completesAt hcompletes hk, List.length_map, List.length_range] at h ⊢
    have hsame : t.CompletesAt world k :=
      ⟨fun i hi => by rw [h i (Nat.lt_succ_of_lt hi)]; exact hcompletes.1 i hi,
        by rw [h k (Nat.lt_succ_self k)]; exact hcompletes.2⟩
    rw [decisions_of_completesAt hsame hk]
    exact List.map_congr_left fun i hi => h i (List.mem_range.mp hi)

/-- A dry run that has ended came to a first decision that is complete. -/
theorem exists_completesAt_of_finished {m : Nat}
    (h : ((s.dryRun world).decisions m).2.finished = true) : ∃ k < m, s.CompletesAt world k := by
  rcases s.continues_or_completesAt world m with hall | hcompletes
  · rw [decisions_of_continues hall] at h
    exact absurd h Bool.false_ne_true
  · exact hcompletes

end DryRun

namespace Schedule

variable {s : Schedule σ} {world : σ}

/-- The dry run of a schedule reaches a decision that is complete. -/
def Completes (s : Schedule σ) (world : σ) : Prop :=
  ∃ n, .complete ∈ ((s.dryRun world).decisions n).1

theorem completes_iff_exists_completesAt : s.Completes world ↔ ∃ k, s.CompletesAt world k := by
  constructor
  · rintro ⟨n, hn⟩
    obtain ⟨k, -, hk⟩ := DryRun.complete_mem_decisions_iff.mp hn
    exact ⟨k, hk⟩
  · rintro ⟨k, hk⟩
    exact ⟨k + 1, DryRun.complete_mem_decisions_iff.mpr ⟨k, Nat.lt_succ_self k, hk⟩⟩

/-- The dry run of a schedule reaches its end unless all decisions continue. -/
theorem completes_iff_not_forall :
    s.Completes world ↔ ¬ ∀ n, (s.decisionAt world n).continues = true := by
  rw [completes_iff_exists_completesAt]
  constructor
  · rintro ⟨k, hk⟩ hall
    have hcontinues := hall k
    rw [hk.2] at hcontinues
    exact Bool.false_ne_true hcontinues
  · intro hnot
    refine Classical.byContradiction fun hnone => hnot ?_
    intro n
    rcases s.continues_or_completesAt world (n + 1) with hall | ⟨k, -, hk⟩
    · exact hall n (Nat.lt_succ_self n)
    · exact absurd ⟨k, hk⟩ hnone

end Schedule

end Cadence
