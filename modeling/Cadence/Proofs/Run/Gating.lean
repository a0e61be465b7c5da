import Cadence.Proofs.Run.Ending

/-!
# Gates in operations and gates in schedules

Which values a run goes on after can be said in two places. An operation with a gate does not ask
its schedule after a value that the gate turns down. Or the operation has no gate and the schedule
has one: then it is asked, and is complete, and the observer is told of it. Nothing else tells the
two apart. The polarities differ: a schedule goes on *while* its test holds and *until* it does, and
so does an operation, but the first is asked about every outcome and the second looks at outcomes of
one kind only.

## Main definitions

* `succeedsWith`, `failsWith` — a test of values, or of errors, as a test of outcomes
* `Operation.Narrows` — an operation accepts what another one does, if a gate lets it pass
* `Run.over` — the same run of another operation, over another schedule
* `Done.AlikeButLast`, `Run.GoesAlike` — two runs do the same but for a last event

## Main results

* `Run.goesAlike` — a gate in the operation and a gate in the schedule
* `Run.gates_in_schedules` — the same for all six operations with a gate
-/

namespace Cadence

variable {σ α ε τ β τ' β' : Type}

/-- Whether an outcome is a success with a value for which `test` holds. -/
def succeedsWith (test : α → Bool) : Except ε α → Bool
  | .ok value => test value
  | .error _ => false

/-- Whether an outcome is a failure with an error for which `test` holds. -/
def failsWith (test : ε → Bool) : Except ε α → Bool
  | .ok _ => false
  | .error error => test error

/-- An operation `op` accepts the outcomes that `op'` accepts and on which `test` has the value
`wanted`, and does the same with them. Those that `op'` alone accepts are turned down. -/
structure Operation.Narrows (op op' : Operation α ε τ β) (test : Except ε α → Bool) (wanted : Bool)
    (turnedDown : Except ε α → Prop) : Prop where
  /-- It accepts what passes the test. -/
  accepts : ∀ outcome, op.Accepts outcome ↔ op'.Accepts outcome ∧ test outcome = wanted
  /-- The rest of what the other one accepts is turned down. -/
  turnedDown : ∀ outcome, turnedDown outcome ↔ op'.Accepts outcome ∧ ¬ op.Accepts outcome
  /-- They return the same. -/
  result : op.result = op'.result

/-! ### The six operations with a gate -/

/-- The gate that lets a value pass on which `test` has the value `wanted`. -/
def Gate.testing (test : α → Bool) : Bool → Gate α
  | true => holding test
  | false => failing test

theorem Gate.passes_all (value : α) : Gate.all.Passes value := trivial

theorem Gate.passes_testing (test : α → Bool) (wanted : Bool) (value : α) :
    (testing test wanted).Passes value ↔ test value = wanted := by
  cases wanted <;> exact Iff.rfl

namespace Operation

theorem narrows_repeating (test : α → Bool) (wanted : Bool) :
    Narrows (ε := ε) (last (.repeating (.testing test wanted))) (last (.repeating .all))
      (succeedsWith test) wanted fun outcome => ∃ value, outcome = .ok value ∧
        test value = !wanted where
  accepts outcome := by
    cases outcome <;>
      simp [Accepts, LastOperation.Accepts, Gate.passes_testing, Gate.passes_all, succeedsWith]
  turnedDown outcome := by
    cases outcome <;>
      simp [Accepts, LastOperation.Accepts, Gate.passes_testing, Gate.passes_all, Bool.eq_not]
  result := rfl

theorem narrows_retrying (test : ε → Bool) (wanted : Bool) :
    Narrows (α := α) (last (.retrying (.testing test wanted))) (last (.retrying .all))
      (failsWith test) wanted fun outcome => ∃ error, outcome = .error error ∧
        test error = !wanted where
  accepts outcome := by
    cases outcome <;>
      simp [Accepts, LastOperation.Accepts, Gate.passes_testing, Gate.passes_all, failsWith]
  turnedDown outcome := by
    cases outcome <;>
      simp [Accepts, LastOperation.Accepts, Gate.passes_testing, Gate.passes_all, Bool.eq_not]
  result := rfl

theorem narrows_fold (init : β) (f : β → α → β) (test : α → Bool) (wanted : Bool) :
    Narrows (ε := ε) (fold init f (.testing test wanted)) (fold init f .all)
      (succeedsWith test) wanted fun outcome => ∃ value, outcome = .ok value ∧
        test value = !wanted where
  accepts outcome := by
    cases outcome <;> simp [Accepts, Gate.passes_testing, Gate.passes_all, succeedsWith]
  turnedDown outcome := by
    cases outcome <;> simp [Accepts, Gate.passes_testing, Gate.passes_all, Bool.eq_not]
  result := rfl

end Operation

/-! ### The course of a schedule with a gate -/

namespace Schedule

variable {s : Schedule σ} {world : σ} {test : Except ε α → Bool} {wanted : Bool}
  {outcomes : Nat → Except ε α} {n : Nat}

/-- As long as the gate lets the outcomes pass, the schedule stands where it does without it. -/
theorem position_gated_of_eq (h : ∀ i < n, test (outcomes i) = wanted) :
    (s.gated test wanted).position outcomes world n = s.position world n := by
  induction n with
  | zero => rfl
  | succ n ih =>
    rw [Policy.position_succ, position_succ, Policy.stepAt,
      ih fun i hi => h i (Nat.lt_succ_of_lt hi)]
    simp only [gated, h n (Nat.lt_succ_self n), beq_self_eq_true, if_true]
    rfl

theorem stepAt_gated_of_eq (h : ∀ i < n, test (outcomes i) = wanted)
    (hn : test (outcomes n) = wanted) :
    (s.gated test wanted).stepAt outcomes world n = s.stepAt world n := by
  rw [Policy.stepAt, position_gated_of_eq h]
  simp only [gated, hn, beq_self_eq_true, if_true]
  rfl

/-- The first outcome that does not pass completes the work, and the schedule is left alone. -/
theorem stepAt_gated_of_ne (h : ∀ i < n, test (outcomes i) = wanted)
    (hn : test (outcomes n) ≠ wanted) :
    (s.gated test wanted).stepAt outcomes world n =
      ⟨.complete, (s.position world n).state, (s.position world n).world⟩ := by
  rw [Policy.stepAt, position_gated_of_eq h]
  simp only [gated, beq_iff_eq, if_neg hn]

end Schedule

/-! ### Runs that are alike -/

/-- The same was done in two runs, but that in the second the observer was told of one more
decision, the last, if the last outcome was turned down. -/
structure Done.AlikeButLast {job job' : Job σ α ε τ β} {ρ : Type} (turnedDown : Except ε α → Prop)
    (d : Done job ρ) (d' : Done job' ρ) : Prop where
  /-- The same came of it. -/
  value : d'.value = d.value
  /-- The effect was called equally often, and had the same outcomes. -/
  outcomes : Happening.outcomes d'.trace = Happening.outcomes d.trace
  /-- The sleeper was asked for the same sleeps. -/
  asked : Happening.asked d'.trace = Happening.asked d.trace
  /-- The same sleeps were completed. -/
  sleeps : Happening.sleeps d'.trace = Happening.sleeps d.trace
  /-- The same sleeps were recorded. -/
  recorded : d'.cycle.session.recorded = d.cycle.session.recorded
  /-- The sources were left the same. -/
  world : d'.cycle.world = d.cycle.world
  /-- If the last outcome was turned down, one more event came last, of a complete decision. -/
  told : ∀ outcome, (Happening.outcomes d.trace).getLast? = some outcome → turnedDown outcome →
    ∃ event, event.outcome = outcome ∧ event.decision = .complete ∧
      Happening.events d'.trace = Happening.events d.trace ++ [event]
  /-- If it was not, all events and the session are the same. -/
  untold : (∀ outcome, (Happening.outcomes d.trace).getLast? = some outcome →
    ¬ turnedDown outcome) →
      Happening.events d'.trace = Happening.events d.trace ∧ d'.cycle.session = d.cycle.session

/-- A run `r'` goes as `r` does, but for an event after a last outcome that was turned down. -/
structure Run.GoesAlike (turnedDown : Except ε α → Prop) (r r' : Run σ α ε τ β) : Prop where
  /-- Turn by turn they are alike. -/
  turns : ∀ n, Done.AlikeButLast turnedDown (r.turns n) (r'.turns n)
  /-- Either ends if the other does, whichever way they are driven. -/
  ends : ∀ driver driver', (∃ d, r.Ends driver d) ↔ ∃ d, r'.Ends driver' d
  /-- When they have ended they are alike. -/
  ended : ∀ driver driver' d d', r.Ends driver d → r'.Ends driver' d' → d.AlikeButLast turnedDown d'

/-! ### The same run of another operation -/

/-- The same run of another operation, over another schedule. -/
def Run.over (r : Run σ α ε τ' β') (op : Operation α ε τ β) (p : Policy σ α ε) : Run σ α ε τ β :=
  ⟨op, p, r.effect, r.runner, r.session, r.world⟩

namespace Run

open Happening

theorem forall_accepts_succ {r : Run σ α ε τ β} {n : Nat} (hbefore : ∀ j < n, r.Accepts j)
    (haccepts : r.Accepts n) : ∀ j < n + 1, r.Accepts j := by
  intro j hj
  rcases Nat.lt_succ_iff_lt_or_eq.mp hj with hj | rfl
  · exact hbefore j hj
  · exact haccepts

/-- The session in which a whole run ends. -/
theorem session_finish (r : Run σ α ε τ β) (k : Nat) : (r.finish k).cycle.session =
    ⟨decide (r.GoesOn k) || r.cancelledByCall k, r.recordedAt k,
      r.session.noticed + r.decided k⟩ := by
  by_cases hgoes : r.GoesOn k <;> simp [finish, cycleAfter, hgoes]

theorem getLast?_map_range {γ : Type} (f : Nat → γ) (n : Nat) :
    ((List.range (n + 1)).map f).getLast? = some (f n) := by
  rw [List.range_succ, List.map_append, List.map_singleton, List.getLast?_concat]

section

variable {r : Run σ α ε τ' β'} {op op' : Operation α ε τ β} {s : Schedule σ}
  {test : Except ε α → Bool} {wanted : Bool} {turnedDown : Except ε α → Prop} {i k n : Nat}
  (h : op.Narrows op' test wanted turnedDown)
include h

theorem accepts_over (i : Nat) : (r.over op s.policy).Accepts i ↔
    (r.over op' (s.gated test wanted)).Accepts i ∧ test (r.outcome i) = wanted :=
  h.accepts (r.outcome i)

/-! ### One call

The schedules stand at the same point before a call if all outcomes before it were accepted. -/

section

variable (hbefore : ∀ j < i, (r.over op s.policy).Accepts j)
include hbefore

theorem passes_before : ∀ j < i, test (r.outcome j) = wanted :=
  fun j hj => ((accepts_over h j).mp (hbefore j hj)).2

theorem position_over :
    (r.over op' (s.gated test wanted)).position i = (r.over op s.policy).position i :=
  (Schedule.position_gated_of_eq (passes_before h hbefore)).trans
    (s.policy_position r.world _ i).symm

theorem decision_over (haccepts : (r.over op s.policy).Accepts i) :
    (r.over op' (s.gated test wanted)).decision i = (r.over op s.policy).decision i :=
  (congrArg Step.decision (Schedule.stepAt_gated_of_eq (passes_before h hbefore)
    ((accepts_over h i).mp haccepts).2)).trans (s.policy_decisionAt r.world _ i).symm

/-- Where the operation turns an outcome down, the schedule with the gate is complete. -/
theorem stepAt_over_of_not_accepts (haccepts : ¬ (r.over op s.policy).Accepts i)
    (haccepts' : (r.over op' (s.gated test wanted)).Accepts i) :
    (s.gated test wanted).stepAt r.outcome r.world i =
      ⟨.complete, (s.position r.world i).state, (s.position r.world i).world⟩ :=
  Schedule.stepAt_gated_of_ne (passes_before h hbefore)
    fun hpasses => haccepts ((accepts_over h i).mpr ⟨haccepts', hpasses⟩)

theorem event_over (haccepts : (r.over op s.policy).Accepts i) :
    (r.over op' (s.gated test wanted)).event i = (r.over op s.policy).event i := by
  rw [event, event, decision_over h hbefore haccepts, position_over h hbefore]
  rfl

theorem goesOn_over :
    (r.over op' (s.gated test wanted)).GoesOn i ↔ (r.over op s.policy).GoesOn i := by
  by_cases haccepts : (r.over op s.policy).Accepts i
  · rw [GoesOn, GoesOn, decision_over h hbefore haccepts,
      iff_true_intro ((accepts_over h i).mp haccepts).1, iff_true_intro haccepts]
  · refine iff_of_false ?_ fun hgoes => haccepts hgoes.1
    rintro ⟨haccepts', hcontinues⟩
    have hstep := stepAt_over_of_not_accepts h hbefore haccepts haccepts'
    have hcomplete : (r.over op' (s.gated test wanted)).decision i = .complete :=
      congrArg Step.decision hstep
    rw [hcomplete] at hcontinues
    exact Bool.false_ne_true hcontinues

theorem cancelledIn_over (haccepts : (r.over op s.policy).Accepts i) :
    (r.over op' (s.gated test wanted)).CancelledIn i ↔ (r.over op s.policy).CancelledIn i := by
  rw [CancelledIn, CancelledIn, CancelledByObserver, CancelledByObserver, CancelledBySleeper,
    CancelledBySleeper, CancelledByOutside, CancelledByOutside, goesOn_over h hbefore,
    event_over h hbefore haccepts, iff_true_intro ((accepts_over h i).mp haccepts).1,
    iff_true_intro haccepts]
  exact Iff.rfl

end

/-! ### Many calls -/

/-- A turn is followed by another one in both runs or in none. -/
theorem followed_over (hbefore : ∀ j < i, (r.over op s.policy).Accepts j) :
    (r.over op' (s.gated test wanted)).Followed i ↔ (r.over op s.policy).Followed i := by
  refine and_congr_right fun _ => ?_
  rw [goesOn_over h hbefore]
  exact and_congr_right fun hgoes => not_congr (cancelledIn_over h hbefore hgoes.1)

theorem undisturbed_over (n : Nat) : (r.over op' (s.gated test wanted)).Undisturbed n ↔
    (r.over op s.policy).Undisturbed n := by
  induction n with
  | zero => exact ⟨fun _ i hi => absurd hi (Nat.not_lt_zero i),
      fun _ i hi => absurd hi (Nat.not_lt_zero i)⟩
  | succ n ih =>
    rw [Undisturbed, Undisturbed, Nat.forall_lt_succ_right, Nat.forall_lt_succ_right]
    exact (and_congr_left' ih).trans (and_congr_right fun hn => followed_over h hn.accepts)

theorem lastTurn_over (k : Nat) : (r.over op' (s.gated test wanted)).LastTurn k ↔
    (r.over op s.policy).LastTurn k :=
  (and_congr_left' (undisturbed_over h k)).trans
    (and_congr_right fun hk => not_congr (followed_over h hk.accepts))

theorem map_delay_over (hn : ∀ j < n, (r.over op s.policy).Accepts j) :
    (List.range n).map (r.over op' (s.gated test wanted)).delay =
      (List.range n).map (r.over op s.policy).delay := by
  refine List.map_congr_left fun j hj => congrArg Decision.delay ?_
  have hj := List.mem_range.mp hj
  exact decision_over h (fun l hl => hn l (Nat.lt_trans hl hj)) (hn j hj)

theorem map_event_over (hn : ∀ j < n, (r.over op s.policy).Accepts j) :
    (List.range n).map (r.over op' (s.gated test wanted)).event =
      (List.range n).map (r.over op s.policy).event := by
  refine List.map_congr_left fun j hj => ?_
  have hj := List.mem_range.mp hj
  exact event_over h (fun l hl => hn l (Nat.lt_trans hl hj)) (hn j hj)

theorem recordedAt_over (hn : ∀ j < n, (r.over op s.policy).Accepts j) :
    (r.over op' (s.gated test wanted)).recordedAt n = (r.over op s.policy).recordedAt n :=
  congrArg (Sleeper.record _ · _) (map_delay_over h hn)

/-! ### The last turn -/

section

variable (hbefore : ∀ j < k, (r.over op s.policy).Accepts j)
include hbefore

/-- The sources are left as they are by an outcome that is turned down. -/
theorem world_over : ((r.over op' (s.gated test wanted)).finish k).cycle.world =
    ((r.over op s.policy).finish k).cycle.world := by
  rw [world_finish, world_finish, decided, decided]
  by_cases haccepts : (r.over op s.policy).Accepts k
  · rw [if_pos haccepts, if_pos ((accepts_over h k).mp haccepts).1,
      position_over h (forall_accepts_succ hbefore haccepts)]
  · rw [if_neg haccepts]
    by_cases haccepts' : (r.over op' (s.gated test wanted)).Accepts k
    · rw [if_pos haccepts']
      refine (congrArg Step.world
        (stepAt_over_of_not_accepts h hbefore haccepts haccepts')).trans ?_
      exact congrArg Position.world (s.policy_position r.world r.outcome k).symm
    · rw [if_neg haccepts', position_over h hbefore]

/-- The results of both runs, if call `k` is the last. -/
theorem value_over : ((r.over op' (s.gated test wanted)).finish k).value =
    ((r.over op s.policy).finish k).value := by
  rw [value_finish, value_finish]
  by_cases hgoes : (r.over op s.policy).GoesOn k
  · rw [if_pos hgoes, if_pos ((goesOn_over h hbefore).mpr hgoes)]
  · rw [if_neg hgoes, if_neg (hgoes ∘ (goesOn_over h hbefore).mp)]
    exact congrFun (congrFun h.result.symm r.outcome) k

theorem asked_over : asked ((r.over op' (s.gated test wanted)).finish k).trace =
    asked ((r.over op s.policy).finish k).trace := by
  rw [asked_finish, asked_finish]
  by_cases hgoes : (r.over op s.policy).GoesOn k
  · rw [if_pos hgoes, if_pos ((goesOn_over h hbefore).mpr hgoes),
      map_delay_over h (forall_accepts_succ hbefore hgoes.1)]
  · rw [if_neg hgoes, if_neg (hgoes ∘ (goesOn_over h hbefore).mp), map_delay_over h hbefore]

/-- Where nothing is turned down, the same decisions were made. -/
theorem decided_over (hnone : ¬ turnedDown (r.outcome k)) :
    (r.over op' (s.gated test wanted)).decided k = (r.over op s.policy).decided k ∧
      ∀ j < (r.over op s.policy).decided k, (r.over op s.policy).Accepts j := by
  rw [decided, decided]
  by_cases haccepts : (r.over op s.policy).Accepts k
  · rw [if_pos haccepts, if_pos ((accepts_over h k).mp haccepts).1]
    exact ⟨rfl, forall_accepts_succ hbefore haccepts⟩
  · have haccepts' : ¬ (r.over op' (s.gated test wanted)).Accepts k :=
      fun haccepts' => hnone ((h.turnedDown _).mpr ⟨haccepts', haccepts⟩)
    rw [if_neg haccepts, if_neg haccepts']
    exact ⟨rfl, hbefore⟩

theorem cancelledByCall_over (hnone : ¬ turnedDown (r.outcome k)) :
    (r.over op' (s.gated test wanted)).cancelledByCall k =
      (r.over op s.policy).cancelledByCall k := by
  refine decide_eq_decide.mpr (or_congr_right ?_)
  by_cases haccepts : (r.over op s.policy).Accepts k
  · rw [CancelledByObserver, CancelledByObserver, event_over h hbefore haccepts,
      iff_true_intro ((accepts_over h k).mp haccepts).1, iff_true_intro haccepts]
    exact Iff.rfl
  · exact iff_of_false (fun hobserver => hnone ((h.turnedDown _).mpr ⟨hobserver.1, haccepts⟩))
      fun hobserver => haccepts hobserver.1

end

/-- Two runs that end with call `k` are alike but for the last event. -/
theorem alike_finish (hk : (r.over op s.policy).Undisturbed k) :
    Done.AlikeButLast turnedDown ((r.over op s.policy).finish k)
      ((r.over op' (s.gated test wanted)).finish k) := by
  have hbefore := hk.accepts
  have hk' := (undisturbed_over h k).mpr hk
  refine ⟨value_over h hbefore, ?_, asked_over h hbefore, ?_, ?_, world_over h hbefore, ?_, ?_⟩
  · rw [outcomes_finish, outcomes_finish]
    rfl
  · rw [sleeps_finish, sleeps_finish, map_delay_over h hbefore]
  · rw [session_finish, session_finish, recordedAt_over h hbefore]
  · intro outcome hlast hdown
    rw [outcomes_finish, getLast?_map_range] at hlast
    obtain rfl := Option.some.inj hlast
    obtain ⟨haccepts', haccepts⟩ := (h.turnedDown _).mp hdown
    have hdecided : (r.over op s.policy).decided k = k := if_neg haccepts
    have hdecided' : (r.over op' (s.gated test wanted)).decided k = k + 1 := if_pos haccepts'
    refine ⟨(r.over op' (s.gated test wanted)).event k, rfl, ?_, ?_⟩
    · exact congrArg Step.decision (stepAt_over_of_not_accepts h hbefore haccepts haccepts')
    · rw [events_finish hk, events_finish hk', hdecided, hdecided', List.range_succ,
        List.map_append, map_event_over h hbefore]
      rfl
  · intro hnone
    have hup := hnone (r.outcome k) (by rw [outcomes_finish, getLast?_map_range]; rfl)
    obtain ⟨hdecided, hall⟩ := decided_over h hbefore hup
    constructor
    · rw [events_finish hk, events_finish hk', hdecided, map_event_over h hall]
    · rw [session_finish, session_finish, hdecided, cancelledByCall_over h hbefore hup,
        recordedAt_over h hbefore]
      simp only [goesOn_over h hbefore]
      rfl

/-- Before turn `n` the runs are alike, and nothing was turned down. -/
theorem alike_undisturbed (hn : (r.over op s.policy).Undisturbed n) :
    Done.AlikeButLast turnedDown
      (⟨(r.over op s.policy).history n, none, (r.over op s.policy).cycleAt n⟩ :
        Done _ (Option (Except (RunError ε) β)))
      ⟨(r.over op' (s.gated test wanted)).history n, none,
        (r.over op' (s.gated test wanted)).cycleAt n⟩ := by
  have hbefore := hn.accepts
  have hn' := (undisturbed_over h n).mpr hn
  refine ⟨rfl, ?_, ?_, ?_, recordedAt_over h hbefore,
    congrArg Position.world (position_over h hbefore), ?_, ?_⟩
  · rw [outcomes_history, outcomes_history]
    rfl
  · rw [asked_history, asked_history, map_delay_over h hbefore]
  · rw [sleeps_history, sleeps_history, map_delay_over h hbefore]
  · intro outcome hlast hdown
    cases n with
    | zero => cases hlast
    | succ n =>
      rw [outcomes_history, getLast?_map_range] at hlast
      obtain rfl := Option.some.inj hlast
      exact absurd (hbefore n (Nat.lt_succ_self n)) ((h.turnedDown _).mp hdown).2
  · intro _
    constructor
    · rw [events_history hn, events_history hn', map_event_over h hbefore]
    · simp only [cycleAt, recordedAt_over h hbefore]
      rfl

/-- Two runs that are stopped by the check before call `k` are alike as they were before it. -/
theorem alike_stopped (hk : (r.over op s.policy).Undisturbed k) :
    Done.AlikeButLast turnedDown ((r.over op s.policy).stopped k)
      ((r.over op' (s.gated test wanted)).stopped k) := by
  obtain ⟨-, houtcomes, hasked, hsleeps, -, hworld, htold, huntold⟩ := alike_undisturbed h hk
  refine ⟨rfl, ?_, ?_, ?_, ?_, hworld, ?_, ?_⟩
  · simpa only [stopped, outcomes_concat_logged] using houtcomes
  · simpa only [stopped, asked_concat_logged] using hasked
  · simpa only [stopped, sleeps_concat_logged] using hsleeps
  · simp only [stopped, checked_cycleAt]
    exact recordedAt_over h hk.accepts
  · simpa only [stopped, outcomes_concat_logged, events_concat_logged] using htold
  · simp only [stopped, outcomes_concat_logged, events_concat_logged, checked_cycleAt,
      recordedAt_over h hk.accepts]
    exact fun hnone => ⟨(huntold hnone).1, rfl⟩

/-- Two whole runs with the same last turn are alike but for the last event. -/
theorem alike_whole (hk : (r.over op s.policy).Undisturbed k) :
    Done.AlikeButLast turnedDown ((r.over op s.policy).whole k)
      ((r.over op' (s.gated test wanted)).whole k) := by
  by_cases hb : (r.over op s.policy).CancelledBefore k
  · have hb' : (r.over op' (s.gated test wanted)).CancelledBefore k := hb
    rw [whole, whole, if_pos hb, if_pos hb']
    exact alike_stopped h hk
  · have hb' : ¬ (r.over op' (s.gated test wanted)).CancelledBefore k := hb
    rw [whole, whole, if_neg hb, if_neg hb']
    exact alike_finish h hk

/-- **Turn by turn** the runs are alike but for the last event. -/
theorem alike_turns (n : Nat) :
    Done.AlikeButLast turnedDown ((r.over op s.policy).turns n)
      ((r.over op' (s.gated test wanted)).turns n) := by
  rcases undisturbed_or_lastTurn (r.over op s.policy) n with hn | ⟨k, hk, hlast⟩
  · rw [turns_of_undisturbed hn, turns_of_undisturbed ((undisturbed_over h n).mpr hn)]
    exact alike_undisturbed h hn
  · rw [turns_of_lastTurn hlast hk, turns_of_lastTurn ((lastTurn_over h k).mpr hlast) hk]
    have halike := alike_whole h hlast.1
    exact { halike with value := congrArg some halike.value }

/-- **A gate in the operation and a gate in the schedule.** Runs of an operation that is narrowed by
a test, and runs of the wider operation whose schedule has the test for a gate, go alike. -/
theorem goesAlike : (r.over op s.policy).GoesAlike turnedDown
    (r.over op' (s.gated test wanted)) where
  turns n := alike_turns h n
  ends driver driver' := by
    simp only [ends_iff_lastTurn]
    constructor
    · rintro ⟨_, k, hk, -⟩
      exact ⟨_, k, (lastTurn_over h k).mpr hk, rfl⟩
    · rintro ⟨_, k, hk, -⟩
      exact ⟨_, k, (lastTurn_over h k).mp hk, rfl⟩
  ended driver driver' d d' hd hd' := by
    obtain ⟨k, hk, rfl⟩ := ends_iff_lastTurn.mp hd
    obtain rfl := ((lastTurn_over h k).mpr hk).ends_iff.mp hd'
    exact alike_whole h hk.1

end

/-- **Gates in operations and gates in schedules**, whatever the schedule and the outcomes are, and
whether the session is cancelled by the effect, by the observer, by the sleeper, by somebody
outside, or by nobody. A run that retries while a test of errors holds goes as one that retries and
whose schedule recurs while the outcome is an error for which the test holds, but for one last event
after an error for which it does not hold. It is the same with *until*, and with repeating and
folding and tests of successes. -/
theorem gates_in_schedules (r : Run σ α ε τ' β') (s : Schedule σ) (init : β) (f : β → α → β) :
    (∀ test : ε → Bool,
      (r.over (.last (.retrying (.holding test))) s.policy).GoesAlike
        (fun outcome => ∃ error, outcome = .error error ∧ test error = false)
        (r.over (.last (.retrying .all)) (s.recurWhile (failsWith test)))) ∧
    (∀ test : ε → Bool,
      (r.over (.last (.retrying (.failing test))) s.policy).GoesAlike
        (fun outcome => ∃ error, outcome = .error error ∧ test error = true)
        (r.over (.last (.retrying .all)) (s.recurUntil (failsWith test)))) ∧
    (∀ test : α → Bool,
      (r.over (.last (.repeating (.holding test))) s.policy).GoesAlike
        (fun outcome => ∃ value, outcome = .ok value ∧ test value = false)
        (r.over (.last (.repeating .all)) (s.recurWhile (succeedsWith test)))) ∧
    (∀ test : α → Bool,
      (r.over (.last (.repeating (.failing test))) s.policy).GoesAlike
        (fun outcome => ∃ value, outcome = .ok value ∧ test value = true)
        (r.over (.last (.repeating .all)) (s.recurUntil (succeedsWith test)))) ∧
    (∀ test : α → Bool,
      (r.over (.fold init f (.holding test)) s.policy).GoesAlike
        (fun outcome => ∃ value, outcome = .ok value ∧ test value = false)
        (r.over (.fold init f .all) (s.recurWhile (succeedsWith test)))) ∧
    ∀ test : α → Bool,
      (r.over (.fold init f (.failing test)) s.policy).GoesAlike
        (fun outcome => ∃ value, outcome = .ok value ∧ test value = true)
        (r.over (.fold init f .all) (s.recurUntil (succeedsWith test))) :=
  ⟨fun test => goesAlike (Operation.narrows_retrying test true),
    fun test => goesAlike (Operation.narrows_retrying test false),
    fun test => goesAlike (Operation.narrows_repeating test true),
    fun test => goesAlike (Operation.narrows_repeating test false),
    fun test => goesAlike (Operation.narrows_fold init f test true),
    fun test => goesAlike (Operation.narrows_fold init f test false)⟩

end Run

end Cadence
