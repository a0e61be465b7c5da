import Cadence.Proofs.Run.Account
import Cadence.Proofs.Run.Cancellation

/-!
# What is logged in a run

A run logs each decision right after the observer was told of it, and at most one thing more, which
tells how it has ended. The observer is shown the context before the decision, the log the counts
after it. Along a run these agree: entry `k` has the number `k` for the call and for the decision,
and the sum of the first `k` delays.

## Main definitions

* `LogLine` — an entry of the log as it is written
* `Ending`, `Run.EndsAs` — the four ways in which a run can end, and which of them it was
* `Event.entry`, `Happening.LogsEvents` — every event is logged, and nothing else is
* `Run.Logged` — what is logged in a run

## Main results

* `Run.logsEvents_poll`, `Run.logsEvents_upTo` — as long as there is no result
* `Run.endsAs_finish`, `Run.lines_finish` — the way a run has ended, and its log
* `Run.logged` — all of this, in every run
-/

namespace Cadence

variable {σ α ε τ β : Type}

/-! ### Lines -/

/-- An entry of the log as it is written. -/
structure LogLine where
  /-- The name of its level. -/
  level : String
  /-- What it says. -/
  message : String
  /-- Its fields, each with its name. -/
  fields : List (String × String)
deriving DecidableEq

/-- An entry of the log as a line. -/
def LogEntry.line (e : LogEntry) : LogLine := ⟨e.level.text, e.message, e.fields⟩

namespace LogLine

/-- The line of decision number `k`, with which the delays add up to `sum`. -/
def decided (k : Nat) (d : Decision) (sum : Duration) : LogLine where
  level := "DEBUG"
  message := "schedule decided"
  fields := [("attempt", toString k), ("iteration", toString k), ("decision", d.text),
    ("cumulative_delay", sum.text)]

/-- The lines of the decisions of a run, which are numbered from one as far as they are counted. -/
def ofDecisions (ds : List Decision) : List LogLine :=
  ds.mapIdx fun i d => decided (min (i + 1) maxCount) d (Decision.total (ds.take (i + 1)))

/-- A line with the number of calls, as far as they are counted. -/
def closing (level message : String) (calls : Nat) : LogLine where
  level := level
  message := message
  fields := [("attempt", toString (min calls maxCount))]

theorem ofDecisions_map_range (f : Nat → Decision) (n : Nat) :
    ofDecisions ((List.range n).map f) = (List.range n).map fun i =>
      decided (min (i + 1) maxCount) (f i) (Decision.total ((List.range (i + 1)).map f)) := by
  refine List.ext_getElem (by simp [ofDecisions]) fun i _ hi => ?_
  have hlt : i < n := by simpa using hi
  have htake : ((List.range n).map f).take (i + 1) = (List.range (i + 1)).map f := by
    rw [← List.map_take, List.take_range, Nat.min_eq_left hlt]
  simp [ofDecisions, htake]

end LogLine

/-! ### Endings -/

/-- How a run has ended. -/
inductive Ending where
  /-- Its schedule was complete. -/
  | completed
  /-- Its operation declined the last outcome. -/
  | declined
  /-- It was cancelled before its first call. -/
  | unstarted
  /-- It was cancelled after a call. -/
  | interrupted

/-- What is logged last after a number of calls: nothing, or the line that tells how the run has
ended. -/
def Ending.lines (calls : Nat) : Ending → List LogLine
  | completed => []
  | declined => [.closing "TRACE" "predicate stopped the run" calls]
  | unstarted => [.closing "DEBUG" "run cancelled" calls]
  | interrupted => [.closing "DEBUG" "run cancelled while sleeping" calls]

/-- What is logged last tells which ending it was. -/
theorem Ending.lines_injective (calls : Nat) : Function.Injective (Ending.lines calls) := by
  intro a b h
  have hmessages := congrArg (List.map LogLine.message) h
  revert hmessages
  cases a <;> cases b <;> simp [lines, LogLine.closing]

/-- Whether a run has ended in a given way. -/
def Run.EndsAs (r : Run σ α ε τ β) (d : Done r.job (Except (RunError ε) β)) : Ending → Prop
  | .completed => (Happening.decisions d.trace).getLast? = some .complete
  | .declined => ∃ outcome, (Happening.outcomes d.trace).getLast? = some outcome ∧
      ¬ r.operation.Accepts outcome
  | .unstarted => d.value = .error .cancelled ∧ Happening.outcomes d.trace = []
  | .interrupted => d.value = .error .cancelled ∧ Happening.outcomes d.trace ≠ []

/-! ### Entries of events -/

/-- The entry of the log for the decision of an event. -/
def Event.entry (e : Event α ε) : LogEntry :=
  let context := e.context.next e.decision
  .decided e.attempt context.iteration e.decision context.elapsed

namespace Happening

/-- What is logged in a trace, as lines. -/
def lines (trace : List (Happening α ε)) : List LogLine := (log trace).map LogEntry.line

/-- Each event of a trace is logged, in order, and nothing else is. -/
def LogsEvents (trace : List (Happening α ε)) : Prop := log trace = (events trace).map Event.entry

variable {a b : List (Happening α ε)}

theorem log_append (a b : List (Happening α ε)) : log (a ++ b) = log a ++ log b :=
  List.filterMap_append

theorem logsEvents_nil : LogsEvents ([] : List (Happening α ε)) := rfl

theorem LogsEvents.append (ha : LogsEvents a) (hb : LogsEvents b) : LogsEvents (a ++ b) := by
  rw [LogsEvents, log_append, events_append, List.map_append, ha, hb]

end Happening

open Happening

namespace Run

variable {r : Run σ α ε τ β} {driver : Driver}

/-! ### As long as there is no result -/

/-- A decision that continues is one of the schedule, and is logged. -/
theorem logsEvents_decide {job : Job σ α ε τ β} (runner : Runner α ε) (outcome : Except ε α)
    (c : Cycle job) (h : (c.decide runner outcome).value.continues = true) :
    LogsEvents (c.decide runner outcome).trace := by
  by_cases haccepts : job.plan.accepts outcome = true
  · cases hstate : c.state with
    | none => simp [Cycle.decide, haccepts, hstate] at h
    | some state =>
      simp only [Cycle.decide, haccepts, hstate, if_true]
      rfl
  · simp [Cycle.decide, haccepts] at h

theorem trace_call (c : Cycle r.job) :
    (c.call r.runner).trace = .called (r.job.effect c.calls).outcome ::
      (Cycle.decide r.runner (r.job.effect c.calls).outcome
        { c with
          calls := c.calls + 1
          session := c.session.cancelIf (r.job.effect c.calls).cancels }).trace := by
  simp only [Cycle.call]
  split
  · rfl
  · rfl

theorem logsEvents_call {c : Cycle r.job} {delay : Duration}
    (h : (c.call r.runner).value = .inr delay) : LogsEvents (c.call r.runner).trace := by
  rw [trace_call]
  exact logsEvents_decide r.runner _ _ (continues_of_call h)

/-- A sleep that is completed is not logged. -/
theorem logsEvents_sleep {c : Cycle r.job} {delay : Duration}
    (h : (c.sleep r.runner delay).value = none) : LogsEvents (c.sleep r.runner delay).trace := by
  simp only [Cycle.sleep] at h ⊢
  split at h
  · rename_i hcompleted
    rw [if_pos hcompleted]
    rfl
  · exact absurd h (Option.some_ne_none _)

/-- A poll that does not bring the result logs what it tells the observer. -/
theorem logsEvents_poll (pace : Pace) {t : Task r.job}
    (hnone : (t.poll r.runner pace).2.phase.result? = none) :
    LogsEvents (t.poll r.runner pace).1 := by
  obtain ⟨phase, c⟩ := t
  cases phase with
  | finished result => exact logsEvents_nil
  | turning =>
    by_cases hcancelled : (c.checked r.runner).session.cancelled = true
    · simp [Task.poll, hcancelled, Phase.result?] at hnone
    · simp only [Task.poll, hcancelled]
      exact logsEvents_nil
  | calling pending =>
    cases pending with
    | succ pending => exact logsEvents_nil
    | zero =>
      cases hcall : (c.call r.runner).value with
      | inl result => simp [Task.poll, hcall, Phase.result?] at hnone
      | inr delay => simpa [Task.poll, hcall] using logsEvents_call hcall
  | sleeping delay pending =>
    cases hpending : r.runner.sleeper.takesTime && !c.session.cancelled && pending != 0 with
    | true =>
      simp only [Task.poll, hpending, if_true]
      exact logsEvents_nil
    | false =>
      cases hslept : (c.sleep r.runner delay).value with
      | some result => simp [Task.poll, hpending, hslept, Phase.result?] at hnone
      | none => simpa [Task.poll, hpending, hslept] using logsEvents_sleep hslept

/-- A task without a result had none before. -/
theorem result?_of_after (pace : Pace) (n : Nat) {t : Task r.job}
    (h : (Task.after r.runner pace n t).2.phase.result? = none) : t.phase.result? = none := by
  cases hresult : t.phase.result? with
  | none => rfl
  | some result =>
    obtain ⟨phase, c⟩ := t
    obtain rfl : phase = .finished result := Phase.eq_finished hresult
    rw [Task.after_finished] at h
    exact nomatch h

theorem logsEvents_after (pace : Pace) (n : Nat) {t : Task r.job}
    (hnone : (Task.after r.runner pace n t).2.phase.result? = none) :
    LogsEvents (Task.after r.runner pace n t).1 := by
  induction n generalizing t with
  | zero => exact logsEvents_nil
  | succ n ih => exact (logsEvents_poll pace (result?_of_after pace n hnone)).append (ih hnone)

/-- **A run that is under way has logged what it told the observer.** -/
theorem logsEvents_upTo {n : Nat} (h : (r.upTo driver n).value = none) :
    LogsEvents (r.upTo driver n).trace := by
  revert h
  refine of_polled (P := fun d => d.value = none → LogsEvents d.trace) (fun pace n hn => ?_)
    driver n
  simp only [upTo, Task.run_eq_after] at hn ⊢
  exact logsEvents_after pace n hn

/-! ### The lines of events -/

/-- The event that follows call `i` is logged with the counts after its decision. -/
theorem line_entry_event (r : Run σ α ε τ β) (i : Nat) :
    (r.event i).entry.line = .decided (min (i + 1) maxCount) (r.decision i)
      (Decision.total ((List.range (i + 1)).map r.decision)) := by
  have hentry : (r.event i).entry = .decided (min (i + 1) maxCount)
      (r.position (i + 1)).context.iteration (r.decision i)
      (r.position (i + 1)).context.elapsed := rfl
  have hiteration : (r.position (i + 1)).context.iteration = min (i + 1) maxCount :=
    r.policy.iteration_position r.outcome r.world (i + 1)
  have htotal : Decision.total ((List.range (i + 1)).map r.decision) =
      (r.position (i + 1)).context.elapsed :=
    r.policy.total_map_decisionAt r.outcome r.world (i + 1)
  rw [hentry, hiteration, htotal]
  rfl

/-- The lines of a trace that logs its events, and of what comes after them. -/
theorem lines_append_closing {told closing : List (Happening α ε)} {j : Nat} (h : LogsEvents told)
    (hevents : events told = (List.range j).map r.event) (hclosing : events closing = []) :
    lines (told ++ closing) =
      LogLine.ofDecisions (decisions (told ++ closing)) ++ lines closing := by
  have hdecisions : decisions (told ++ closing) = (List.range j).map r.decision := by
    rw [decisions, events_append, hclosing, List.append_nil, hevents, List.map_map]
    rfl
  have htold : lines told = LogLine.ofDecisions ((List.range j).map r.decision) := by
    rw [lines, h, hevents, List.map_map, List.map_map, LogLine.ofDecisions_map_range]
    exact List.map_congr_left fun i _ => r.line_entry_event i
  rw [hdecisions, ← htold, lines, log_append, List.map_append]
  rfl

theorem lines_upTo {n : Nat} (h : (r.upTo driver n).value = none) :
    lines (r.upTo driver n).trace = LogLine.ofDecisions (decisions (r.upTo driver n).trace) := by
  obtain ⟨j, hevents, -⟩ := r.exists_events_upTo driver n
  have hnone : events ([] : List (Happening α ε)) = [] := rfl
  have hlines := lines_append_closing (logsEvents_upTo h) hevents hnone
  rw [List.append_nil] at hlines
  rw [hlines]
  exact List.append_nil _

/-! ### When a run has ended -/

theorem logsEvents_callTrace {i : Nat} (h : r.Accepts i) : LogsEvents (r.callTrace i) := by
  rw [callTrace, if_pos h]
  rfl

theorem logsEvents_history {n : Nat} (h : r.Undisturbed n) : LogsEvents (r.history n) := by
  induction n with
  | zero => exact logsEvents_nil
  | succ n ih =>
    rw [history_succ]
    have hcall := logsEvents_callTrace (h.accepts n (Nat.lt_succ_self n))
    exact (ih fun i hi => h i (Nat.lt_succ_of_lt hi)).append (hcall.append rfl)

variable (r) in
/-- How a run has ended whose last call was call `k`. -/
def ending (k : Nat) : Ending :=
  if r.GoesOn k then .interrupted else if r.Accepts k then .completed else .declined

/-- What is logged after the last decision. -/
theorem lines_finish {k : Nat} (h : r.Undisturbed k) :
    lines (r.finish k).trace = LogLine.ofDecisions (decisions (r.finish k).trace) ++
      (r.ending k).lines (k + 1) := by
  rw [trace_finish]
  by_cases haccepts : r.Accepts k
  · have htold : LogsEvents (r.history k ++ r.callTrace k) :=
      (logsEvents_history h).append (logsEvents_callTrace haccepts)
    have hevents : events (r.history k ++ r.callTrace k) = (List.range (k + 1)).map r.event := by
      rw [events_append, events_history h, events_callTrace, if_pos haccepts, List.range_succ,
        List.map_append]
      rfl
    rw [← List.append_assoc, lines_append_closing htold hevents (r.events_lastTrace k), ending,
      lastTrace]
    by_cases hgoes : r.GoesOn k
    · rw [if_pos hgoes, if_pos hgoes]
      rfl
    · rw [if_neg hgoes, if_neg hgoes, if_pos haccepts]
      rfl
  · have hgoes : ¬ r.GoesOn k := fun hgoes => haccepts hgoes.1
    have hquiet : events (r.callTrace k ++ r.lastTrace k) = [] := by
      rw [events_append, events_callTrace, if_neg haccepts, events_lastTrace]
      rfl
    rw [lines_append_closing (logsEvents_history h) (events_history h) hquiet, ending,
      if_neg hgoes, if_neg haccepts, lastTrace, if_neg hgoes, callTrace, if_neg haccepts]
    rfl

/-- Its schedule was complete if it was asked after the last call and did not continue. -/
theorem endsAs_completed {k : Nat} (h : r.Undisturbed k) :
    r.EndsAs (r.finish k) .completed ↔ r.Accepts k ∧ ¬ r.GoesOn k := by
  rw [EndsAs, decisions_finish h, decided]
  by_cases haccepts : r.Accepts k
  · have hcomplete : r.decision k = .complete ↔ ¬ r.GoesOn k := by
      rw [← Decision.continues_eq_false, GoesOn, and_iff_right haccepts, Bool.not_eq_true]
    rw [if_pos haccepts, List.range_succ, List.map_append, List.map_singleton,
      List.getLast?_concat, Option.some_inj, hcomplete, and_iff_right haccepts]
  · rw [if_neg haccepts]
    refine iff_of_false (fun hlast => ?_) fun hboth => haccepts hboth.1
    -- the last decision is one before the last call
    obtain ⟨i, hi, hcomplete⟩ := List.mem_map.mp (List.mem_of_getLast? hlast)
    exact Decision.ne_complete (h.continues i (List.mem_range.mp hi)) hcomplete

theorem endsAs_declined (k : Nat) : r.EndsAs (r.finish k) .declined ↔ ¬ r.Accepts k := by
  rw [EndsAs, outcomes_finish, List.range_succ, List.map_append, List.map_singleton,
    List.getLast?_concat]
  constructor
  · rintro ⟨outcome, hlast, hdeclines⟩
    obtain rfl := Option.some.inj hlast
    exact hdeclines
  · intro hdeclines
    exact ⟨r.outcome k, rfl, hdeclines⟩

theorem outcomes_finish_ne_nil (k : Nat) : outcomes (r.finish k).trace ≠ [] := by
  rw [outcomes_finish, List.range_succ, List.map_append]
  exact List.concat_ne_nil _ _

theorem endsAs_interrupted (k : Nat) : r.EndsAs (r.finish k) .interrupted ↔ r.GoesOn k := by
  rw [EndsAs, and_iff_left (outcomes_finish_ne_nil k), value_finish]
  by_cases hgoes : r.GoesOn k
  · rw [if_pos hgoes]
    exact iff_of_true rfl hgoes
  · rw [if_neg hgoes]
    exact iff_of_false (r.operation.result_ne_cancelled r.outcome k) hgoes

/-- A run that has made its last call has ended in one of three ways. -/
theorem endsAs_finish {k : Nat} (h : r.Undisturbed k) (e : Ending) :
    r.EndsAs (r.finish k) e ↔ e = r.ending k := by
  have hunstarted : ¬ r.EndsAs (r.finish k) .unstarted :=
    fun hended => outcomes_finish_ne_nil k hended.2
  have hways : (r.GoesOn k ∧ r.Accepts k) ∨ (¬ r.GoesOn k ∧ r.Accepts k) ∨
      (¬ r.GoesOn k ∧ ¬ r.Accepts k) := by
    have haccepts : r.GoesOn k → r.Accepts k := And.left
    tauto
  rcases hways with ⟨hgoes, haccepts⟩ | ⟨hgoes, haccepts⟩ | ⟨hgoes, haccepts⟩ <;> cases e <;>
    simp [ending, endsAs_completed h, endsAs_declined, endsAs_interrupted, hunstarted, hgoes,
      haccepts]

/-- A run that was stopped before its first call has ended in no other way. -/
theorem endsAs_stopped (r : Run σ α ε τ β) (e : Ending) :
    r.EndsAs (r.stopped 0) e ↔ e = .unstarted := by
  cases e with
  | completed => exact iff_of_false (fun h => nomatch h) (fun h => nomatch h)
  | declined => exact iff_of_false (fun ⟨_, h, _⟩ => nomatch h) (fun h => nomatch h)
  | unstarted => exact iff_of_true ⟨rfl, rfl⟩ rfl
  | interrupted => exact iff_of_false (fun h => h.2 rfl) (fun h => nomatch h)

theorem lines_stopped (r : Run σ α ε τ β) :
    lines (r.stopped 0).trace = LogLine.ofDecisions (decisions (r.stopped 0).trace) ++
      Ending.unstarted.lines 0 := by
  rfl

/-- What is logged in a run. -/
structure Logged (r : Run σ α ε τ β) : Prop where
  /-- A run that is under way has logged the decisions the observer was told of. -/
  underWay : ∀ driver n, (r.upTo driver n).value = none →
    lines (r.upTo driver n).trace = LogLine.ofDecisions (decisions (r.upTo driver n).trace)
  /-- A run that has ended did so in one of the four ways. -/
  endsAs : ∀ driver d, r.Ends driver d → ∃ e, r.EndsAs d e
  /-- In each way, and in no other, it has logged the decisions and the line for that way. -/
  lines_eq_iff : ∀ driver d, r.Ends driver d → ∀ e, r.EndsAs d e ↔
    lines d.trace =
      LogLine.ofDecisions (decisions d.trace) ++ e.lines (outcomes d.trace).length

/-- If a run has ended in one way only, the log tells in which. -/
theorem lines_eq_iff_of_endsAs {d : Done r.job (Except (RunError ε) β)} {ending : Ending}
    (hended : ∀ e, r.EndsAs d e ↔ e = ending)
    (hlines : lines d.trace = LogLine.ofDecisions (decisions d.trace) ++
      ending.lines (outcomes d.trace).length) (e : Ending) :
    r.EndsAs d e ↔ lines d.trace =
      LogLine.ofDecisions (decisions d.trace) ++ e.lines (outcomes d.trace).length := by
  rw [hended, hlines, List.append_cancel_left_eq, (Ending.lines_injective _).eq_iff, eq_comm]

/-- In which way a run has ended that nobody outside cancels, and what it has logged. -/
theorem exists_ending (hnobody : r.runner.outside = .nobody)
    {d : Done r.job (Except (RunError ε) β)} (h : r.Ends driver d) :
    ∃ ending : Ending, (∀ e, r.EndsAs d e ↔ e = ending) ∧
      lines d.trace = LogLine.ofDecisions (decisions d.trace) ++
        ending.lines (outcomes d.trace).length := by
  rcases ends_cases h with ⟨k, hk, rfl⟩ | ⟨k, hk, rfl⟩
  · obtain ⟨rfl, -⟩ := (cancelledBefore_iff_of_nobody hnobody k).mp hk.2
    exact ⟨.unstarted, endsAs_stopped r, lines_stopped r⟩
  · have hcalls : (outcomes (r.finish k).trace).length = k + 1 := by
      rw [outcomes_finish, List.length_map, List.length_range]
    rw [hcalls]
    exact ⟨r.ending k, endsAs_finish hk.1.1, lines_finish hk.1.1⟩

/-- **What is logged in a run** that is cancelled before it begins, by the effect, by the observer,
by the sleeper, or not at all. Whatever the schedule, the operation and the outcomes are, and by
either driver: each decision that the observer was told of, with its number, and the sum of the
delays up to it; then, when the run has ended, the line that tells in which way, and none exactly if
the schedule was complete. -/
theorem logged (op : Operation α ε τ β) (policy : Policy σ α ε) (effect : Nat → Call α ε)
    (sleeper : Sleeper) (observer : Nat → Event α ε → Bool) (session : Session) (world : σ) :
    Logged ⟨op, policy, effect, ⟨sleeper, observer, .nobody⟩, session, world⟩ where
  underWay _ _ h := lines_upTo h
  endsAs _ _ h := by
    obtain ⟨ending, hended, -⟩ := exists_ending rfl h
    exact ⟨ending, (hended ending).mpr rfl⟩
  lines_eq_iff _ _ h := by
    obtain ⟨ending, hended, hlines⟩ := exists_ending rfl h
    exact lines_eq_iff_of_endsAs hended hlines

/-- A retry of an effect that fails, and that cancels the session in its second call. -/
def abandonedRetry : Run Unit Unit Unit Unit Unit where
  operation := .last (.retrying .all)
  policy := (Schedule.spaced (.ofMillis 20)).policy
  effect i := ⟨.error (), i == 1⟩
  runner := ⟨.recording none, fun _ _ => false, .nobody⟩
  session := .fresh
  world := ()

/-- By its log it was cancelled after a call. -/
theorem logged_abandonedRetry :
    ∃ d, abandonedRetry.Ends .blocking d ∧ abandonedRetry.EndsAs d .interrupted ∧
      lines d.trace = [
        .decided 1 (.runAfter (.ofMillis 20)) (.ofMillis 20),
        .decided 2 (.runAfter (.ofMillis 20)) (.ofMillis 40),
        .closing "DEBUG" "run cancelled while sleeping" 2] := by
  have hends : abandonedRetry.Ends .blocking
      ⟨(abandonedRetry.turns 2).trace, .error .cancelled, (abandonedRetry.turns 2).cycle⟩ :=
    ⟨2, rfl⟩
  have hlines : lines (abandonedRetry.turns 2).trace =
      LogLine.ofDecisions [.runAfter (.ofMillis 20), .runAfter (.ofMillis 20)] ++
        Ending.interrupted.lines 2 := by
    decide +kernel
  have hlogged := logged abandonedRetry.operation abandonedRetry.policy abandonedRetry.effect
    abandonedRetry.runner.sleeper abandonedRetry.runner.observer .fresh ()
  exact ⟨_, hends, (hlogged.lines_eq_iff _ _ hends .interrupted).mpr hlines, hlines⟩

end Run

end Cadence
