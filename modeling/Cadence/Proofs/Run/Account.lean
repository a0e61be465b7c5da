import Cadence.Proofs.Run.Ending
import Cadence.Proofs.Schedule.Cutoff

/-!
# What an observer is told

The counted calls, the context, the outcomes and the sleeps of a run are kept apart, and change at
different points of a turn. An event shows all of them at once. Here it is compared with what has
happened before it: whatever the schedule and the outcomes are, and whoever of the effect, the
observer, the sleeper and those outside cancels the session, it tells of the call that was just
made, and its context is that of the decisions told before and of the sleeps that were completed
since the run began.

## Main definitions

* `Event.TellsOf` — an event agrees with what has happened before it
* `Cycle.LeftAlone` — nothing was decided
* `Run.Accounted` — what the events of a run tell

## Main results

* `Run.exists_of_noticed` — where in a run an event is
* `Run.tellsOf_event` — the events of a run agree with what has happened
* `Run.map_outcome_events` — which outcomes the events of a run that has ended are of
* `Run.leftAlone_turn`, `Run.leftAlone_poll` — an outcome that is declined
* `Run.accounted` — all of this, in every run
-/

namespace Cadence

variable {σ α ε τ β : Type}

open Happening

/-- A list that ends with `x` and is a beginning of another one: it is that of the first element, or
goes on after it. -/
theorem concat_isPrefix_cons {γ : Type} {v l : List γ} {x a : γ} (h : v ++ [x] <+: a :: l) :
    (v = [] ∧ x = a) ∨ ∃ v', v = a :: v' ∧ v' ++ [x] <+: l := by
  cases v with
  | nil => exact Or.inl ⟨rfl, (List.cons_prefix_cons.mp h).1⟩
  | cons b v =>
    obtain ⟨rfl, hrest⟩ := List.cons_prefix_cons.mp h
    exact Or.inr ⟨v, rfl, hrest⟩

theorem mem_events {trace : List (Happening α ε)} {e : Event α ε} :
    e ∈ events trace ↔ .noticed e ∈ trace := by
  rw [events, List.mem_filterMap]
  constructor
  · rintro ⟨x, hx, hview⟩
    cases x with
    | noticed event =>
      obtain rfl := Option.some.inj hview
      exact hx
    | called outcome => cases hview
    | logged entry => cases hview
    | slept delay completed => cases hview
  · intro h
    exact ⟨_, h, rfl⟩

theorem mem_outcomes {trace : List (Happening α ε)} {outcome : Except ε α}
    (h : .called outcome ∈ trace) : outcome ∈ outcomes trace :=
  List.mem_filterMap.mpr ⟨_, h, rfl⟩

/-- An event tells of what has happened `before` it: it is the next event, it follows the next call,
and its context is made of the events and of the sleeps so far. -/
structure Event.TellsOf (e : Event α ε) (before : List (Happening α ε)) : Prop where
  /-- There was one call more than there were events. -/
  calls : (outcomes before).length = (events before).length + 1
  /-- Its outcome is that of the last call. -/
  outcome : (outcomes before).getLast? = some e.outcome
  /-- The attempt is the number of calls, as far as it is counted. -/
  attempt : e.attempt = min ((events before).length + 1) maxCount
  /-- The context counts the events before, as far as they are counted. -/
  iteration : e.context.iteration = min (events before).length maxCount
  /-- The last decision is that of the event before, if there was one. -/
  last : e.context.last = (events before).getLast?.map Event.decision
  /-- The sum of the delays is that of the completed sleeps, cut off at the longest duration. -/
  elapsed : e.context.elapsed = (sleeps before).foldl (· + ·) 0

namespace Run

variable {r : Run σ α ε τ β} {driver : Driver} {before after : List (Happening α ε)} {e : Event α ε}

/-! ### The context of a call -/

theorem last_position (i : Nat) :
    (r.position i).context.last = ((List.range i).map r.decision).getLast? := by
  cases i with
  | zero => rfl
  | succ i =>
    rw [List.range_succ, List.map_append, List.map_singleton, List.getLast?_concat]
    rfl

theorem elapsed_position (i : Nat) :
    (r.position i).context.elapsed = ((List.range i).map r.delay).foldl (· + ·) 0 := by
  have htotal := r.policy.total_map_decisionAt r.outcome r.world i
  rw [Decision.total, List.foldl_map] at htotal
  rw [List.foldl_map]
  exact htotal.symm

/-! ### Where an event is -/

/-- In a turn there is no event but that of the decision on its call. -/
theorem of_noticed_isPrefix {i : Nat} {v : List (Happening α ε)}
    (h : v ++ [.noticed e] <+: r.turnTrace i) :
    r.Accepts i ∧ v = [.called (r.outcome i)] ∧ e = r.event i := by
  have hquiet : ∀ entry, .noticed e ∉ .logged entry :: r.lastTrace i := by
    intro entry hmem
    have hevent := mem_events.mpr hmem
    rw [show events (.logged entry :: r.lastTrace i) = events (r.lastTrace i) from rfl,
      events_lastTrace] at hevent
    exact List.not_mem_nil hevent
  have hmem : ∀ v : List (Happening α ε), .noticed e ∈ v ++ [.noticed e] :=
    fun v => List.mem_append_right v (List.mem_singleton_self _)
  rw [turnTrace] at h
  split at h
  · -- the check that stops a run tells the observer of nothing
    cases List.mem_singleton.mp (h.subset (hmem v))
  · rw [callTrace, List.cons_append] at h
    rcases concat_isPrefix_cons h with ⟨-, hcalled⟩ | ⟨v, rfl, hdecided⟩
    · cases hcalled
    · by_cases haccepts : r.Accepts i
      · rw [if_pos haccepts] at hdecided
        rcases concat_isPrefix_cons hdecided with ⟨rfl, hnoticed⟩ | ⟨w, rfl, hafter⟩
        · exact ⟨haccepts, rfl, Happening.noticed.inj hnoticed⟩
        · exact absurd (hafter.subset (hmem w)) (hquiet _)
      · rw [if_neg haccepts] at hdecided
        exact absurd (hdecided.subset (hmem v)) (hquiet _)

theorem history_ne_concat_noticed (i : Nat) : before ++ [.noticed e] ≠ r.history i := by
  intro h
  cases i with
  | zero => exact List.concat_ne_nil _ _ h
  | succ i =>
    rw [history_succ, ← List.append_assoc] at h
    cases (List.append_inj' h rfl).2

/-- **Where an event is** that can be seen of a run: it follows the call of the same number. -/
theorem exists_of_noticed {n : Nat}
    (h : (r.upTo driver n).trace = before ++ .noticed e :: after) :
    ∃ i, r.Undisturbed i ∧ r.Accepts i ∧ before = r.history i ++ [.called (r.outcome i)] ∧
      e = r.event i := by
  have hbegins : before ++ [.noticed e] <+: (r.upTo driver n).trace :=
    ⟨after, by rw [h, List.append_assoc]; rfl⟩
  obtain ⟨i, hi, u, hu, hseen⟩ :=
    exists_of_prefix_turns (hbegins.trans (r.isPrefix_trace_upTo driver n))
  rcases List.eq_nil_or_concat u with rfl | ⟨v, x, rfl⟩
  · rw [List.append_nil] at hseen
    exact absurd hseen (history_ne_concat_noticed i)
  · rw [List.concat_eq_append, ← List.append_assoc] at hseen
    obtain ⟨rfl, hx⟩ := List.append_inj' hseen rfl
    obtain rfl := (List.cons.inj hx).1
    obtain ⟨haccepts, rfl, rfl⟩ := of_noticed_isPrefix (List.concat_eq_append ▸ hu)
    exact ⟨i, hi, haccepts, rfl, rfl⟩

/-! ### What the events tell -/

theorem outcomes_upToCall (r : Run σ α ε τ β) (i : Nat) :
    outcomes (r.history i ++ [.called (r.outcome i)]) =
      (List.range i).map r.outcome ++ [r.outcome i] := by
  rw [outcomes_append, outcomes_history]
  rfl

theorem events_upToCall {i : Nat} (h : r.Undisturbed i) :
    events (r.history i ++ [.called (r.outcome i)]) = (List.range i).map r.event := by
  rw [events_append, events_history h]
  exact List.append_nil _

theorem sleeps_upToCall (r : Run σ α ε τ β) (i : Nat) :
    sleeps (r.history i ++ [.called (r.outcome i)]) = (List.range i).map r.delay := by
  rw [sleeps_append, sleeps_history]
  exact List.append_nil _

/-- **The account of an event.** The one that follows call `i` tells of it and of all before it. -/
theorem tellsOf_event {i : Nat} (h : r.Undisturbed i) :
    (r.event i).TellsOf (r.history i ++ [.called (r.outcome i)]) where
  calls := by
    rw [outcomes_upToCall, events_upToCall h]
    simp only [List.length_append, List.length_map, List.length_range, List.length_singleton]
  outcome := by
    rw [outcomes_upToCall, List.getLast?_concat]
    rfl
  attempt := by
    rw [events_upToCall h, List.length_map, List.length_range]
    rfl
  iteration := by
    rw [events_upToCall h, List.length_map, List.length_range]
    exact r.policy.iteration_position r.outcome r.world i
  last := by
    rw [events_upToCall h, ← List.getLast?_map, List.map_map]
    exact last_position i
  elapsed := by
    rw [sleeps_upToCall]
    exact elapsed_position i

/-- **Nothing is told twice or left out.** When a run has ended, the events are of the outcomes that
the operation accepts, in their order. -/
theorem map_outcome_events {d : Done r.job (Except (RunError ε) β)} (h : r.Ends driver d) :
    (events d.trace).map Event.outcome =
      (outcomes d.trace).filter fun outcome => decide (r.operation.Accepts outcome) := by
  have htold : ∀ n, ((List.range n).map r.event).map Event.outcome =
      (List.range n).map r.outcome := fun n => List.map_map
  have hearlier : ∀ {k}, r.Undisturbed k → ((List.range k).map r.outcome).filter
      (fun outcome => decide (r.operation.Accepts outcome)) = (List.range k).map r.outcome := by
    intro k hk
    refine List.filter_eq_self.mpr fun outcome hmem => ?_
    obtain ⟨i, hi, rfl⟩ := List.mem_map.mp hmem
    exact decide_eq_true (hk.accepts i (List.mem_range.mp hi))
  rcases ends_cases h with ⟨k, hk, rfl⟩ | ⟨k, hk, rfl⟩
  · rw [events_stopped hk.1.1, htold, outcomes_stopped, hearlier hk.1.1]
  · rw [events_finish hk.1.1, htold, outcomes_finish, List.range_succ, List.map_append,
      List.filter_append, hearlier hk.1.1, decided]
    -- only the last outcome can be declined
    by_cases haccepts : r.Accepts k
    · have hlast : r.operation.Accepts (r.outcome k) := haccepts
      rw [if_pos haccepts, List.range_succ, List.map_append]
      simp only [List.map_singleton, List.filter_singleton, decide_eq_true hlast, cond_true]
    · have hlast : ¬ r.operation.Accepts (r.outcome k) := haccepts
      rw [if_neg haccepts]
      simp only [List.map_singleton, List.filter_singleton, decide_eq_false hlast, cond_false,
        List.append_nil]

/-- What is told after something has happened is told after a call that was not made yet. -/
theorem exists_of_mem_events {n : Nat} {x : Happening α ε}
    (h : (r.upTo driver n).trace = before ++ x :: after) {e : Event α ε} (he : e ∈ events after) :
    ∃ i, r.Undisturbed i ∧ r.Accepts i ∧
      before ++ [x] <+: r.history i ++ [.called (r.outcome i)] := by
  obtain ⟨between, rest, rfl⟩ := List.append_of_mem (mem_events.mp he)
  have hsplit : (r.upTo driver n).trace = (before ++ [x] ++ between) ++ .noticed e :: rest := by
    rw [h]
    simp only [List.append_assoc, List.cons_append, List.nil_append]
  obtain ⟨i, hi, haccepts, hbefore, -⟩ := exists_of_noticed hsplit
  exact ⟨i, hi, haccepts, between, hbefore⟩

/-- After an event of a decision that is complete there is no other: the run has not gone on. -/
theorem no_event_after_complete {n : Nat}
    (h : (r.upTo driver n).trace = before ++ .noticed e :: after)
    (hcomplete : e.decision = .complete) : events after = [] := by
  refine List.eq_nil_iff_forall_not_mem.mpr fun e' he' => ?_
  obtain ⟨i, hi, -, hbegins⟩ := exists_of_mem_events h he'
  have hmem : e ∈ events (r.history i ++ [.called (r.outcome i)]) :=
    mem_events.mpr (hbegins.subset (List.mem_append_right _ (List.mem_singleton_self _)))
  rw [events_upToCall hi] at hmem
  obtain ⟨l, hl, rfl⟩ := List.mem_map.mp hmem
  exact Decision.ne_complete (hi.continues l (List.mem_range.mp hl)) hcomplete

/-- After an outcome that the operation declines there is no event. -/
theorem no_event_after_declined {n : Nat} {outcome : Except ε α}
    (h : (r.upTo driver n).trace = before ++ .called outcome :: after)
    (hdeclined : ¬ r.operation.Accepts outcome) : events after = [] := by
  refine List.eq_nil_iff_forall_not_mem.mpr fun e he => ?_
  obtain ⟨i, hi, haccepts, hbegins⟩ := exists_of_mem_events h he
  have hmem : outcome ∈ outcomes (r.history i ++ [.called (r.outcome i)]) :=
    mem_outcomes (hbegins.subset (List.mem_append_right _ (List.mem_singleton_self _)))
  rw [outcomes_upToCall, List.mem_append, List.mem_singleton] at hmem
  rcases hmem with hearlier | rfl
  · obtain ⟨l, hl, rfl⟩ := List.mem_map.mp hearlier
    exact hdeclined (hi.accepts l (List.mem_range.mp hl))
  · exact hdeclined haccepts

end Run

/-! ### Outcomes that are declined -/

/-- Between two points of a run nothing was decided: nobody was told of a decision, and all that a
decision changes is as it was. -/
structure Cycle.LeftAlone {job : Job σ α ε τ β} (c : Cycle job) (trace : List (Happening α ε))
    (c' : Cycle job) : Prop where
  /-- There is no event. -/
  events : Happening.events trace = []
  /-- The schedule has the same state. -/
  state : c'.state = c.state
  /-- The context is the same. -/
  context : c'.context = c.context
  /-- The sources are the same. -/
  world : c'.world = c.world
  /-- The observer was told of as many decisions. -/
  noticed : c'.session.noticed = c.session.noticed

namespace Run

variable (r : Run σ α ε τ β)

/-- A call whose outcome is declined brings the result of the run. -/
theorem exists_call_of_declined (c : Cycle r.job)
    (h : ¬ r.operation.Accepts (r.effect c.calls).outcome) :
    ∃ result, (c.call r.runner).value = .inl result ∧
      c.LeftAlone (c.call r.runner).trace (c.call r.runner).cycle := by
  have hdeclines : ¬ r.job.plan.accepts (r.job.effect c.calls).outcome = true :=
    mt (r.operation.accepts_plan _).mp h
  obtain ⟨result, hstops⟩ :=
    r.operation.exists_absorb_true c.kept (r.effect c.calls).outcome
  change r.job.plan.absorb c.kept (r.job.effect c.calls).outcome true = _ at hstops
  have hcall : c.call r.runner =
      ⟨[.called (r.effect c.calls).outcome, .logged (.declined (countUp c.attempt))], .inl result,
        { c with
          calls := c.calls + 1
          session := c.session.cancelIf (r.effect c.calls).cancels
          attempt := countUp c.attempt }⟩ := by
    simp only [Cycle.call, Cycle.decide, if_neg hdeclines, Decision.isComplete, hstops]
    rfl
  rw [hcall, Session.cancelIf_eq]
  exact ⟨result, rfl, rfl, rfl, rfl, rfl, rfl⟩

/-- **An outcome that is declined** in a turn leaves the schedule and the context alone. So does the
check, if it keeps the run from making the call. -/
theorem leftAlone_turn (c : Cycle r.job)
    (h : ¬ r.operation.Accepts (r.effect c.calls).outcome) :
    c.LeftAlone (c.turn r.runner).trace (c.turn r.runner).cycle := by
  have hnoticed : (c.checked r.runner).session.noticed = c.session.noticed := by
    rw [Cycle.checked, Session.cancelIf_eq]
  obtain ⟨result, hresult, halone⟩ := r.exists_call_of_declined (c.checked r.runner) h
  rw [Cycle.turn]
  split
  · exact ⟨rfl, rfl, rfl, rfl, hnoticed⟩
  · simp only [hresult]
    exact { halone with noticed := halone.noticed.trans hnoticed }

/-- So it does in the poll in which the call returns. -/
theorem leftAlone_poll (pace : Pace) (c : Cycle r.job)
    (h : ¬ r.operation.Accepts (r.effect c.calls).outcome) :
    let polled := Task.poll r.runner pace ⟨.calling 0, c⟩
    c.LeftAlone polled.1 polled.2.cycle := by
  obtain ⟨result, hresult, halone⟩ := r.exists_call_of_declined c h
  simp only [Task.poll, hresult]
  exact halone

/-- What the events of a run tell. -/
structure Accounted (r : Run σ α ε τ β) : Prop where
  /-- Each event tells of what has happened before it. -/
  tellsOf : ∀ driver n before e after, (r.upTo driver n).trace = before ++ .noticed e :: after →
    e.TellsOf before
  /-- When the run has ended, the observer was told of the outcomes that are accepted, and of no
  others. -/
  told : ∀ driver d, r.Ends driver d → (events d.trace).map Event.outcome =
    (outcomes d.trace).filter fun outcome => decide (r.operation.Accepts outcome)
  /-- Only the last event can be of a decision that is complete. -/
  complete : ∀ driver n before e after, (r.upTo driver n).trace = before ++ .noticed e :: after →
    e.decision = .complete → events after = []
  /-- No event follows an outcome that the operation declines. -/
  declined : ∀ driver n before outcome after,
    (r.upTo driver n).trace = before ++ .called outcome :: after →
      ¬ r.operation.Accepts outcome → events after = []
  /-- A turn in which the outcome is declined leaves the schedule and the context alone. -/
  turn : ∀ c : Cycle r.job, ¬ r.operation.Accepts (r.effect c.calls).outcome →
    c.LeftAlone (c.turn r.runner).trace (c.turn r.runner).cycle
  /-- So does the poll in which a call returns with such an outcome. -/
  poll : ∀ pace (c : Cycle r.job), ¬ r.operation.Accepts (r.effect c.calls).outcome →
    let polled := Task.poll r.runner pace ⟨.calling 0, c⟩
    c.LeftAlone polled.1 polled.2.cycle

/-- **The account of a run.** By either driver, at any time and whatever the schedule, the operation
and the outcomes are, the events that were told agree with what has happened. The session may have
been cancelled before the run began, or may be by the effect, by the observer, by the sleeper, or by
somebody outside in any sleep or before any check. -/
theorem accounted (r : Run σ α ε τ β) : r.Accounted where
  tellsOf driver n before e after h := by
    obtain ⟨i, hi, -, rfl, rfl⟩ := exists_of_noticed h
    exact tellsOf_event hi
  told _ _ h := map_outcome_events h
  complete _ _ _ _ _ h hcomplete := no_event_after_complete h hcomplete
  declined _ _ _ _ _ h hdeclined := no_event_after_declined h hdeclined
  turn := r.leftAlone_turn
  poll := r.leftAlone_poll

end Run

end Cadence
