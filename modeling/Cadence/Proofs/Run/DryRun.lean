import Cadence.Proofs.Run.Ending
import Cadence.Schedule.Simple

/-!
# Runs and dry runs

A schedule that pays no attention to outcomes decides in a run what it decides in a dry run. So
what the sleeper is asked for in a run can be read off the dry run, whatever the outcomes are, and
a run that nobody stops makes the whole of it.

## Scope

What is said of a run is said of all that can be seen of it, also while it is under way. A task can
be seen between a decision and the end of the sleep that follows, and then it has one sleep less
than it has delays due.

## Main definitions

* `Happening.decisions` — the decisions in a trace
* `Happening.due` — the delays of those that continue
* `Run.FollowsDryRun` — how a run goes in comparison with a dry run

## Main results

* `Run.decisions_prefix_dryRun` — the decisions in a run are the first of the dry run
* `Run.followsDryRun` — a run over a schedule goes as the dry run does
-/

namespace Cadence

variable {σ α ε τ β : Type}

/-! ### Beginnings of lists -/

/-- The values of a function at the first numbers begin with those at fewer numbers. -/
theorem isPrefix_map_range {γ : Type} (f : Nat → γ) {m n : Nat} (h : m ≤ n) :
    (List.range m).map f <+: (List.range n).map f := by
  obtain ⟨k, rfl⟩ := Nat.exists_eq_add_of_le h
  rw [List.range_add, List.map_append]
  exact List.prefix_append _ _

/-! ### Decisions that continue -/

/-- The delays of decisions that all continue. -/
theorem Decision.filterMap_delay? {f : Nat → Decision} {n : Nat}
    (h : ∀ i < n, (f i).continues = true) :
    ((List.range n).map f).filterMap Decision.delay? = (List.range n).map fun i => (f i).delay := by
  induction n with
  | zero => rfl
  | succ n ih =>
    have hn := Decision.delay?_of_continues (h n (Nat.lt_succ_self n))
    rw [List.range_succ, List.map_append, List.filterMap_append,
      ih fun i hi => h i (Nat.lt_succ_of_lt hi), List.map_append]
    simp [hn]

/-- If only the first few of some decisions continue, no more than these do. -/
theorem Decision.countP_continues_le {f : Nat → Decision} {bound n : Nat}
    (h : ∀ i < n, (f i).continues = true → i < bound) :
    ((List.range n).map f).countP continues ≤ bound := by
  induction n with
  | zero => exact Nat.zero_le _
  | succ n ih =>
    rw [List.range_succ, List.map_append, List.map_singleton, List.countP_append,
      List.countP_singleton]
    by_cases hcontinues : (f n).continues = true
    · have hlength := List.countP_le_length (p := continues) (l := (List.range n).map f)
      rw [List.length_map, List.length_range] at hlength
      have hn := h n (Nat.lt_succ_self n) hcontinues
      rw [if_pos hcontinues]
      omega
    · rw [if_neg hcontinues]
      exact ih fun i hi => h i (Nat.lt_succ_of_lt hi)

theorem Decision.countP_continues_eq {f : Nat → Decision} {n : Nat}
    (h : ∀ i < n, (f i).continues = true) : ((List.range n).map f).countP continues = n := by
  have hall : ∀ d ∈ (List.range n).map f, d.continues = true := by
    intro d hd
    obtain ⟨i, hi, rfl⟩ := List.mem_map.mp hd
    exact h i (List.mem_range.mp hi)
  rw [List.countP_eq_length.mpr hall, List.length_map, List.length_range]

namespace Happening

/-- The decisions in a trace. -/
def decisions (trace : List (Happening α ε)) : List Decision := (events trace).map Event.decision

/-- The delays of the decisions in a trace that continue. -/
def due (trace : List (Happening α ε)) : List Duration :=
  (decisions trace).filterMap Decision.delay?

/-- Whether there is a sleep in a trace that was not completed. -/
def interrupted (trace : List (Happening α ε)) : Bool :=
  trace.any fun
    | slept _ completed => !completed
    | _ => false

variable (a b : List (Happening α ε))

@[simp] theorem decisions_append : decisions (a ++ b) = decisions a ++ decisions b := by
  rw [decisions, events_append, List.map_append, ← decisions, ← decisions]

@[simp] theorem due_append : due (a ++ b) = due a ++ due b := by
  rw [due, decisions_append, List.filterMap_append, ← due, ← due]

@[simp] theorem interrupted_append : interrupted (a ++ b) = (interrupted a || interrupted b) :=
  List.any_append

variable {a b}

theorem isPrefix_events (h : a <+: b) : events a <+: events b := by
  obtain ⟨c, rfl⟩ := h
  rw [events_append]
  exact List.prefix_append _ _

theorem isPrefix_due (h : a <+: b) : due a <+: due b := by
  obtain ⟨c, rfl⟩ := h
  rw [due_append]
  exact List.prefix_append _ _

theorem isPrefix_sleeps (h : a <+: b) : sleeps a <+: sleeps b := by
  obtain ⟨c, rfl⟩ := h
  rw [sleeps_append]
  exact List.prefix_append _ _

/-- Whether every delay that is due was slept, except for the last one perhaps. -/
def Paced (trace : List (Happening α ε)) : Prop :=
  sleeps trace = due trace ∨ sleeps trace = (due trace).dropLast

/-- A trace stays paced when there is one more decision, at most, and no sleep. -/
theorem paced_append (ha : sleeps a = due a) (hb : sleeps b = []) (hdue : (due b).length ≤ 1) :
    Paced (a ++ b) := by
  rw [Paced, sleeps_append, due_append, ha, hb, List.append_nil]
  cases h : due b with
  | nil => exact Or.inl (List.append_nil _).symm
  | cons delay rest =>
    obtain rfl : rest = [] := by
      rw [h, List.length_cons] at hdue
      exact List.eq_nil_of_length_eq_zero (by omega)
    exact Or.inr (List.dropLast_concat).symm

end Happening

namespace Run

open Happening

variable (r : Run σ α ε τ β)

/-! ### In one call -/

theorem interrupted_lastTrace (k : Nat) : interrupted (r.lastTrace k) = decide (r.GoesOn k) := by
  rw [lastTrace]
  split <;> rename_i h
  · rw [decide_eq_true h]
    rfl
  · rw [decide_eq_false h]
    rfl

theorem interrupted_callTrace (i : Nat) : interrupted (r.callTrace i) = false := by
  rw [callTrace]
  split <;> rfl

theorem interrupted_history (n : Nat) : interrupted (r.history n) = false := by
  induction n with
  | zero => rfl
  | succ n ih =>
    rw [history_succ, interrupted_append, interrupted_append, ih, interrupted_callTrace]
    rfl

variable {r}

/-! ### Decisions -/

theorem decisions_history {n : Nat} (h : r.Undisturbed n) :
    decisions (r.history n) = (List.range n).map r.decision := by
  rw [decisions, events_history h, List.map_map]
  rfl

theorem decisions_finish {k : Nat} (h : r.Undisturbed k) :
    decisions (r.finish k).trace = (List.range (r.decided k)).map r.decision := by
  rw [decisions, events_finish h, List.map_map]
  rfl

/-- The events that can be seen of a run are those of its first calls, and all of their decisions
continue except for the last one perhaps. -/
theorem exists_events_upTo (r : Run σ α ε τ β) (driver : Driver) (n : Nat) :
    ∃ j, events (r.upTo driver n).trace = (List.range j).map r.event ∧
      ∀ i, i + 1 < j → (r.decision i).continues = true := by
  obtain ⟨i, hi, u, hu, ht⟩ := exists_of_prefix_turns (r.isPrefix_trace_upTo driver n)
  have hevents := isPrefix_events hu
  rw [ht, events_append, events_history hi]
  cases htold : events u with
  | nil => exact ⟨i, List.append_nil _, fun l hl => hi.continues l (Nat.lt_of_succ_lt hl)⟩
  | cons event rest =>
    rw [htold] at hevents
    obtain ⟨-, hturn⟩ := (r.events_turnTrace i).resolve_left fun hnone => by
      rw [hnone] at hevents
      exact absurd (List.prefix_nil.mp hevents) (List.cons_ne_nil _ _)
    rw [hturn] at hevents
    obtain ⟨rfl, hrest⟩ := List.cons_prefix_cons.mp hevents
    obtain rfl := List.prefix_nil.mp hrest
    refine ⟨i + 1, ?_, fun l hl => hi.continues l (Nat.lt_of_succ_lt_succ hl)⟩
    rw [List.range_succ, List.map_append]
    rfl

/-- So the decisions that can be seen are the first of its policy. -/
theorem exists_decisions_upTo (r : Run σ α ε τ β) (driver : Driver) (n : Nat) :
    ∃ j, decisions (r.upTo driver n).trace = (List.range j).map r.decision ∧
      ∀ i, i + 1 < j → (r.decision i).continues = true := by
  obtain ⟨j, hevents, hcontinues⟩ := r.exists_events_upTo driver n
  refine ⟨j, ?_, hcontinues⟩
  rw [decisions, hevents, List.map_map]
  rfl

/-- A run over a schedule decides what the schedule decides. -/
theorem decision_of_policy {s : Schedule σ} {r : Run σ α ε τ β} (h : r.policy = s.policy) :
    r.decision = s.decisionAt r.world := by
  obtain ⟨op, policy, effect, runner, session, world⟩ := r
  obtain rfl : policy = s.policy := h
  funext i
  exact s.policy_decisionAt world _ i

/-- The decisions of a schedule up to one that only others that continue come before are the first
of its dry run. -/
theorem isPrefix_map_decisionAt {s : Schedule σ} {world : σ} {j m : Nat}
    (h : ∀ i, i + 1 < j → (s.decisionAt world i).continues = true) (hm : j ≤ m) :
    (List.range j).map (s.decisionAt world) <+: ((s.dryRun world).decisions m).1 := by
  rcases s.continues_or_completesAt world m with hall | ⟨k, hk, hcompletes⟩
  · rw [DryRun.decisions_of_continues hall]
    exact isPrefix_map_range _ hm
  · rw [DryRun.decisions_of_completesAt hcompletes hk]
    refine isPrefix_map_range _ (Nat.le_of_not_lt fun hlt => ?_)
    have hcontinues := h k hlt
    rw [hcompletes.2] at hcontinues
    exact Bool.false_ne_true hcontinues

/-- **The decisions in a run are the first of the dry run.** -/
theorem decisions_prefix_dryRun {s : Schedule σ}
    (hs : ∀ i, r.decision i = s.decisionAt r.world i) (driver : Driver) (n m : Nat)
    (hm : (decisions (r.upTo driver n).trace).length ≤ m) :
    decisions (r.upTo driver n).trace <+: ((s.dryRun r.world).decisions m).1 := by
  obtain ⟨j, hj, hcontinues⟩ := r.exists_decisions_upTo driver n
  have hdecision : r.decision = s.decisionAt r.world := funext hs
  rw [hj, List.length_map, List.length_range] at hm
  rw [hj, hdecision]
  rw [hdecision] at hcontinues
  exact isPrefix_map_decisionAt hcontinues hm

/-! ### Sleeps -/

theorem due_history {n : Nat} (h : r.Undisturbed n) :
    due (r.history n) = (List.range n).map r.delay := by
  rw [due, decisions_history h, Decision.filterMap_delay? h.continues]
  rfl

theorem length_due_turnTrace (r : Run σ α ε τ β) (i : Nat) : (due (r.turnTrace i)).length ≤ 1 := by
  refine Nat.le_trans (List.length_filterMap_le _ _) ?_
  rw [decisions, List.length_map]
  rcases r.events_turnTrace i with h | ⟨-, h⟩ <;> simp [h]

/-- At any time, every delay that is due was slept, except for the last one perhaps. -/
theorem paced_upTo (r : Run σ α ε τ β) (driver : Driver) (n : Nat) :
    Paced (r.upTo driver n).trace := by
  obtain ⟨i, hi, u, hu, ht⟩ := exists_of_prefix_turns (r.isPrefix_trace_upTo driver n)
  have hsleeps := isPrefix_sleeps hu
  rw [sleeps_turnTrace] at hsleeps
  rw [ht]
  refine paced_append ?_ (List.prefix_nil.mp hsleeps) ?_
  · rw [sleeps_history, due_history hi]
  · exact Nat.le_trans (isPrefix_due hu).length_le (r.length_due_turnTrace i)

/-- The delays that are due in a run that ends with a call. The last of them is not slept if the run
would go on. -/
theorem due_finish {k : Nat} (h : r.Undisturbed k) :
    due (r.finish k).trace = (List.range (if r.GoesOn k then k + 1 else k)).map r.delay := by
  have hbefore := h.continues
  rw [due, decisions_finish h, decided]
  by_cases haccepts : r.Accepts k
  · rw [if_pos haccepts]
    by_cases hcontinues : (r.decision k).continues = true
    · have hall : ∀ i < k + 1, (r.decision i).continues = true := by
        intro i hi
        rcases Nat.lt_succ_iff_lt_or_eq.mp hi with hi | rfl
        · exact hbefore i hi
        · exact hcontinues
      rw [Decision.filterMap_delay? hall, if_pos ⟨haccepts, hcontinues⟩]
      rfl
    · have hcomplete : r.decision k = .complete := by simpa using hcontinues
      rw [List.range_succ, List.map_append, List.filterMap_append,
        Decision.filterMap_delay? hbefore, if_neg fun hgoes => hcontinues hgoes.2]
      rw [List.map_cons, hcomplete]
      exact List.append_nil _
  · rw [if_neg haccepts, Decision.filterMap_delay? hbefore, if_neg fun hgoes => haccepts hgoes.1]
    rfl

/-- The sleeps of a run that ends with a call are the delays that are due, without the last one if
that sleep was interrupted. -/
theorem sleeps_eq_due_finish {k : Nat} (h : r.LastCall k) :
    sleeps (r.finish k).trace =
      if interrupted (r.finish k).trace then (due (r.finish k).trace).dropLast
      else due (r.finish k).trace := by
  have hinterrupted : interrupted (r.finish k).trace = decide (r.GoesOn k) := by
    rw [trace_finish, interrupted_append, interrupted_append, interrupted_history,
      interrupted_callTrace, interrupted_lastTrace]
    rfl
  rw [hinterrupted, sleeps_finish, due_finish h.1.1]
  by_cases hgoes : r.GoesOn k
  · rw [if_pos hgoes, if_pos (decide_eq_true hgoes), List.range_succ, List.map_append]
    exact (List.dropLast_concat).symm
  · rw [if_neg hgoes, if_neg (by simp [hgoes])]

/-- The sleeps of a run that is stopped by the check before a call are all delays that are due. -/
theorem sleeps_eq_due_stopped {k : Nat} (h : r.LastCheck k) :
    interrupted (r.stopped k).trace = false ∧
      sleeps (r.stopped k).trace = due (r.stopped k).trace := by
  constructor
  · rw [stopped, interrupted_append, interrupted_history]
    rfl
  · rw [sleeps_stopped, stopped, due_append, due_history h.1.1]
    exact (List.append_nil _).symm

/-- The sleeps of a whole run are the delays that are due, without the last one if that sleep was
interrupted. -/
theorem sleeps_eq_due_of_ends {driver : Driver} {d : Done r.job (Except (RunError ε) β)}
    (h : r.Ends driver d) :
    sleeps d.trace = if interrupted d.trace then (due d.trace).dropLast else due d.trace := by
  rcases ends_cases h with ⟨k, hk, rfl⟩ | ⟨k, hk, rfl⟩
  · obtain ⟨hinterrupted, hsleeps⟩ := sleeps_eq_due_stopped hk
    rw [hinterrupted]
    exact hsleeps
  · exact sleeps_eq_due_finish hk

/-! ### The whole run -/

/-- How a run over a schedule goes in comparison with a dry run that begins in the same world. -/
structure FollowsDryRun (s : Schedule σ) (r : Run σ α ε τ β) (driver : Driver) : Prop where
  /-- The decisions that can be seen of the run are the first of the dry run. -/
  decisions : ∀ n m, (decisions (r.upTo driver n).trace).length ≤ m →
    decisions (r.upTo driver n).trace <+: ((s.dryRun r.world).decisions m).1
  /-- Any two runs over the schedule make the same decisions as far as they both go. -/
  alike : ∀ {τ' β' : Type} (r' : Run σ α ε τ' β'), r'.policy = s.policy → r'.world = r.world →
    ∀ driver' n n', Happening.decisions (r.upTo driver n).trace <+:
        Happening.decisions (r'.upTo driver' n').trace ∨
      Happening.decisions (r'.upTo driver' n').trace <+:
        Happening.decisions (r.upTo driver n).trace
  /-- As long as the run is under way, all delays were slept except for the last one perhaps. -/
  paced : ∀ n, Paced (r.upTo driver n).trace
  /-- When the run has ended, all delays were slept except for the last one if the run was cancelled
  in that sleep. -/
  sleeps : ∀ d, r.Ends driver d → sleeps d.trace =
    if interrupted d.trace then (due d.trace).dropLast else due d.trace
  /-- These sleeps are what a sleeper has recorded that keeps a record. -/
  recorded : ∀ d, r.Ends driver d → d.cycle.session.recorded =
    r.runner.sleeper.record r.session.recorded (Happening.sleeps d.trace)
  /-- If the operation accepts every outcome, nobody cancels the session and the dry run ends, then
  the run ends as well. Its sleeps are the delays of the dry run, and the effect was called once for
  each of its decisions. -/
  whole : (∀ i, r.Accepts i) → (∀ n, (r.upTo driver n).cycle.session.cancelled = false) →
    ∀ m, ((s.dryRun r.world).decisions m).2.finished = true →
      ∃ d, r.Ends driver d ∧ Happening.sleeps d.trace = ((s.dryRun r.world).delays m).1 ∧
        (outcomes d.trace).length = ((s.dryRun r.world).decisions m).1.length

/-- A run that accepts every outcome and that nobody cancels ends where its schedule completes. -/
theorem lastCall_of_completesAt {s : Schedule σ} {driver : Driver}
    (hs : ∀ i, r.decision i = s.decisionAt r.world i) (haccepts : ∀ i, r.Accepts i)
    (hnever : ∀ n, (r.upTo driver n).cycle.session.cancelled = false) {k : Nat}
    (h : s.CompletesAt r.world k) : r.LastCall k := by
  have hgoes : ∀ i < k, r.GoesOn i := fun i hi => ⟨haccepts i, by rw [hs]; exact h.1 i hi⟩
  have hreached := undisturbed_of_goesOn hnever hgoes
  refine ⟨⟨hreached, fun hk => ?_⟩, (not_cancelled_of_never hnever hreached).1⟩
  have hcontinues := hk.2.1.2
  rw [hs, h.2] at hcontinues
  exact Bool.false_ne_true hcontinues

/-- A run that accepts every outcome and that nobody cancels ends exactly if the dry run does. -/
theorem exists_ends_iff_completes {s : Schedule σ} {driver : Driver}
    (hs : ∀ i, r.decision i = s.decisionAt r.world i) (haccepts : ∀ i, r.Accepts i)
    (hnever : ∀ n, (r.upTo driver n).cycle.session.cancelled = false) :
    (∃ d, r.Ends driver d) ↔ s.Completes r.world := by
  rw [Schedule.completes_iff_exists_completesAt]
  constructor
  · rintro ⟨d, hd⟩
    obtain ⟨k, hk, -⟩ := ends_iff_lastTurn.mp hd
    refine ⟨k, fun i hi => hs i ▸ hk.1.continues i hi, ?_⟩
    have hgoes := (hk.lastCall_of_never hnever).2
    rw [← hs, ← Decision.continues_eq_false]
    exact Bool.eq_false_iff.mpr fun hcontinues => hgoes ⟨haccepts k, hcontinues⟩
  · rintro ⟨k, hk⟩
    exact ⟨_, (lastCall_of_completesAt hs haccepts hnever hk).ends_iff.mpr rfl⟩

/-- **A run over a schedule goes as the dry run does**, whatever is done in it, whatever the
outcomes are, and however it is cancelled: before it begins, by the effect, by the observer, by the
sleeper, or by somebody outside, in a sleep or by the check before a call. -/
theorem followsDryRun (s : Schedule σ) (op : Operation α ε τ β) (effect : Nat → Call α ε)
    (runner : Runner α ε) (session : Session) (world : σ) (driver : Driver) :
    FollowsDryRun s ⟨op, s.policy, effect, runner, session, world⟩ driver := by
  have hdecision : ∀ {τ' β' : Type} (r' : Run σ α ε τ' β'), r'.policy = s.policy →
      ∀ i, r'.decision i = s.decisionAt r'.world i := by
    rintro τ' β' ⟨op', _, effect', runner', session', world'⟩ rfl i
    exact s.policy_decisionAt world' _ i
  generalize hr : (⟨op, s.policy, effect, runner, session, world⟩ : Run σ α ε τ β) = r
  have hs : ∀ i, r.decision i = s.decisionAt r.world i := hdecision r (by rw [← hr])
  refine ⟨decisions_prefix_dryRun hs driver, ?_, r.paced_upTo driver, ?_, ?_, ?_⟩
  · intro τ' β' r' hpolicy hworld driver' n n'
    -- both are beginnings of the dry run up to the longer of the two
    have hfirst := fun m => decisions_prefix_dryRun hs driver n m
    have hsecond := fun m => decisions_prefix_dryRun (hdecision r' hpolicy) driver' n' m
    rw [hworld] at hsecond
    exact List.prefix_or_prefix_of_prefix (hfirst _ (Nat.le_max_left _ _))
      (hsecond _ (Nat.le_max_right _ _))
  · exact fun d hd => sleeps_eq_due_of_ends hd
  · intro d hd
    obtain ⟨k, -, rfl⟩ := ends_iff_lastTurn.mp hd
    exact r.recorded_whole k
  · intro haccepts hnever m hm
    obtain ⟨k, hk, hcompletes⟩ := DryRun.exists_completesAt_of_finished hm
    have hlast := lastCall_of_completesAt hs haccepts hnever hcompletes
    refine ⟨r.finish k, hlast.ends_iff.mpr rfl, ?_, ?_⟩
    · rw [sleeps_finish, DryRun.delays_of_completesAt hcompletes hk]
      exact List.map_congr_left fun i _ => congrArg Decision.delay (hs i)
    · rw [outcomes_finish, DryRun.decisions_of_completesAt hcompletes hk]
      simp

/-- A retry of an effect that always fails. -/
def alwaysFailing : Run Unit Nat String Unit Nat where
  operation := .last (.retrying .all)
  policy := (Schedule.recurs 2).policy
  effect _ := ⟨.error "down", false⟩
  runner := ⟨.recording none, fun _ _ => false, .nobody⟩
  session := .fresh
  world := ()

theorem followsDryRun_alwaysFailing :
    ∃ d, alwaysFailing.Ends .blocking d ∧ sleeps d.trace = [0, 0] ∧
      (outcomes d.trace).length = 3 := by
  exact (followsDryRun (Schedule.recurs 2) (.last (.retrying .all)) alwaysFailing.effect
    alwaysFailing.runner .fresh () .blocking).whole (fun _ => trivial)
    (not_cancelled_turns rfl (fun _ => rfl) rfl) 3 rfl

end Run

end Cadence
