import Cadence.Proofs.Course
import Cadence.Proofs.Run.Operation
import Cadence.Run.Drive

/-!
# How a run goes

What a run does, told call by call from the course of its policy: which calls it goes on after,
where it is cancelled, what happens and where it then stands. A run takes its turns exactly so.
Everything that is said about runs elsewhere is read off here.

## Main definitions

* `Run` — an operation, its schedule, effect and runner, and what they begin with
* `Run.GoesOn` — whether the schedule lets a run go on after a call
* `Run.CancelledBefore` — whether the check before a call finds the session cancelled
* `Run.CancelledIn` — whether the session is cancelled between that check and the end of the sleep
* `Run.LastTurn` — which turn is the last of a run
* `Run.history`, `Run.whole` — what happens before a turn, and in a whole run

## Main results

* `Run.turn_of_goesOn`, `Run.turn_of_cancelledIn`, `Run.turn_of_not_goesOn`,
  `Run.turn_of_cancelledBefore` — one turn
* `Run.turns_of_undisturbed` — the turns before the last
* `Run.turns_of_lastTurn` — a run up to its end

## Implementation notes

Calls and decisions are numbered from zero, so call `i` comes after `i` other calls. As long as a
run goes on there is one decision for each call, and decision `i` follows call `i`. Turn `i` is the
check before call `i`, the call, and the sleep that follows; its last turn may consist of the check
alone.
-/

namespace Cadence

variable {σ α ε τ β : Type}

/-- A run: what is done in it, and what it begins with. -/
structure Run (σ α ε τ β : Type) where
  /-- The operation. -/
  operation : Operation α ε τ β
  /-- The schedule. -/
  policy : Policy σ α ε
  /-- The call of the effect after a number of calls. -/
  effect : Nat → Call α ε
  /-- How to sleep and whom to tell of decisions. -/
  runner : Runner α ε
  /-- The session in which the run begins. -/
  session : Session
  /-- The world in which the run begins. -/
  world : σ

/-- A count that was cut off goes on as if it had been cut off later. -/
theorem countUp_min (n : Nat) : countUp (min n maxCount) = min (n + 1) maxCount := by
  rw [countUp]
  omega

/-- A list of recorded sleeps with the sleeps that a sleeper has taken since. -/
def Sleeper.record (before taken : List Duration) : Sleeper → List Duration
  | recording _ => before ++ taken
  | waiting => before

theorem Sleeper.record_nil (sleeper : Sleeper) (before : List Duration) :
    sleeper.record before [] = before := by
  cases sleeper with
  | waiting => rfl
  | recording cancelAfter => exact List.append_nil before

theorem Session.cancelIf_eq (condition : Bool) (s : Session) :
    s.cancelIf condition = ⟨s.cancelled || condition, s.recorded, s.noticed⟩ := by
  cases condition <;> simp [cancelIf, cancel]

/-- A sleep in a session that nobody cancels but the sleeper. -/
theorem Sleeper.sleep_of_not_cancelled (sleeper : Sleeper) (delay : Duration)
    (recorded : List Duration) (noticed : Nat) :
    sleeper.sleep delay false ⟨false, recorded, noticed⟩ =
      if sleeper = .recording (some recorded.length) then (false, ⟨true, recorded, noticed⟩)
      else (true, ⟨false, sleeper.record recorded [delay], noticed⟩) := by
  cases sleeper with
  | waiting => simp [sleep, record, Session.cancelIf]
  | recording cancelAfter => simp [sleep, record, Session.cancel, Session.cancelIf]

/-- A sleep in a session that is cancelled, or that somebody else cancels. -/
theorem Sleeper.sleep_of_cancelled (sleeper : Sleeper) (delay : Duration)
    {cancelled meanwhile : Bool} (h : (cancelled || meanwhile) = true) (recorded : List Duration)
    (noticed : Nat) :
    sleeper.sleep delay meanwhile ⟨cancelled, recorded, noticed⟩ =
      (false, ⟨true, recorded, noticed⟩) := by
  simp only [sleep, Session.cancelIf_eq, h, if_true]

namespace Run

variable (r : Run σ α ε τ β)

/-- The job of a run. -/
def job : Job σ α ε τ β := ⟨r.policy, r.operation.plan, r.effect⟩

/-- At most `n` turns of a run. -/
def turns (n : Nat) : Done r.job (Option (Except (RunError ε) β)) :=
  r.runner.run r.job n r.session r.world

/-! ### Call by call -/

/-- The outcome of a call. -/
def outcome (i : Nat) : Except ε α := (r.effect i).outcome

/-- Where the schedule stands before it decides on a call. -/
def position (i : Nat) : Position r.policy.State σ := r.policy.position r.outcome r.world i

/-- The decision of the schedule on a call. -/
def decision (i : Nat) : Decision := r.policy.decisionAt r.outcome r.world i

/-- The delay that follows a call. -/
def delay (i : Nat) : Duration := (r.decision i).delay

/-- What the observer is told of the decision on a call. -/
def event (i : Nat) : Event α ε :=
  ⟨min (i + 1) maxCount, (r.position i).context, r.outcome i, r.decision i⟩

/-- Whether the operation accepts the outcome of a call. -/
def Accepts (i : Nat) : Prop := r.operation.Accepts (r.outcome i)

/-- Whether, by the operation and the schedule, a run goes on after a call. -/
def GoesOn (i : Nat) : Prop := r.Accepts i ∧ (r.decision i).continues = true

instance (i : Nat) : Decidable (r.Accepts i) :=
  inferInstanceAs (Decidable (r.operation.Accepts (r.outcome i)))

instance (i : Nat) : Decidable (r.GoesOn i) := inferInstanceAs (Decidable (_ ∧ _))

/-- The number of decisions that were made when a call was taken in. -/
def decided (i : Nat) : Nat := if r.Accepts i then i + 1 else i

/-! ### Cancelling -/

/-- Whether the check before a call finds the session cancelled, if the run comes to it. It was so
when the run began, or somebody outside has cancelled it since. -/
def CancelledBefore (i : Nat) : Prop :=
  (i = 0 ∧ r.session.cancelled = true) ∨ r.runner.outside.check i = true

/-- Whether the session is cancelled in a call, by the effect or by somebody else meanwhile. -/
def CancelledByEffect (i : Nat) : Prop := (r.effect i).cancels = true

/-- Whether the observer cancels the session when it is told of the decision on a call. -/
def CancelledByObserver (i : Nat) : Prop :=
  r.Accepts i ∧ r.runner.observer (r.session.noticed + i) (r.event i) = true

/-- Whether the sleeper cancels the session instead of taking the sleep that follows a call. -/
def CancelledBySleeper (i : Nat) : Prop :=
  r.GoesOn i ∧ r.runner.sleeper = .recording (some (r.session.recorded.length + i))

/-- Whether somebody outside cancels the session before the sleep that follows a call is over. -/
def CancelledByOutside (i : Nat) : Prop :=
  r.GoesOn i ∧ r.runner.outside.sleep (i + 1) = true

/-- Whether the session is cancelled in a turn that begins with a call. -/
def CancelledIn (i : Nat) : Prop :=
  r.CancelledByEffect i ∨ r.CancelledByObserver i ∨ r.CancelledBySleeper i ∨
    r.CancelledByOutside i

/-- Whether a turn is followed by another one, if the run comes to it. -/
def Followed (i : Nat) : Prop := ¬ r.CancelledBefore i ∧ r.GoesOn i ∧ ¬ r.CancelledIn i

instance (i : Nat) : Decidable (r.CancelledBefore i) := inferInstanceAs (Decidable (_ ∨ _))

instance (i : Nat) : Decidable (r.CancelledByEffect i) :=
  inferInstanceAs (Decidable (_ = true))

instance (i : Nat) : Decidable (r.CancelledByObserver i) := inferInstanceAs (Decidable (_ ∧ _))

instance (i : Nat) : Decidable (r.CancelledBySleeper i) := inferInstanceAs (Decidable (_ ∧ _))

instance (i : Nat) : Decidable (r.CancelledByOutside i) := inferInstanceAs (Decidable (_ ∧ _))

instance (i : Nat) : Decidable (r.CancelledIn i) := inferInstanceAs (Decidable (_ ∨ _ ∨ _ ∨ _))

instance (i : Nat) : Decidable (r.Followed i) := inferInstanceAs (Decidable (_ ∧ _ ∧ _))

/-- Whether the turns before turn `n` are all followed by another one, so that a run comes to it. -/
def Undisturbed (n : Nat) : Prop := ∀ i < n, r.Followed i

/-- Whether a turn is the last of a run. -/
def LastTurn (k : Nat) : Prop := r.Undisturbed k ∧ ¬ r.Followed k

/-- Whether a call is the last of a run whose last turn is that of a call. -/
def LastCall (k : Nat) : Prop := r.LastTurn k ∧ ¬ r.CancelledBefore k

/-- Whether the check before a call is the last thing that a run does. -/
def LastCheck (k : Nat) : Prop := r.LastTurn k ∧ r.CancelledBefore k

variable {r} in
theorem Undisturbed.goesOn {n : Nat} (h : r.Undisturbed n) : ∀ i < n, r.GoesOn i :=
  fun i hi => (h i hi).2.1

variable {r} in
theorem Undisturbed.accepts {n : Nat} (h : r.Undisturbed n) : ∀ i < n, r.Accepts i :=
  fun i hi => (h.goesOn i hi).1

variable {r} in
theorem Undisturbed.continues {n : Nat} (h : r.Undisturbed n) :
    ∀ i < n, (r.decision i).continues = true :=
  fun i hi => (h.goesOn i hi).2

variable {r} in
theorem LastCall.cancelledIn {k : Nat} (h : r.LastCall k) (hgoes : r.GoesOn k) : r.CancelledIn k :=
  Decidable.not_not.mp fun hc => h.1.2 ⟨h.2, hgoes, hc⟩

/-! ### What happens -/

/-- What happens in a call and the decision on it. -/
def callTrace (i : Nat) : List (Happening α ε) :=
  .called (r.outcome i) ::
    if r.Accepts i then
      [.noticed (r.event i),
        .logged (.decided (min (i + 1) maxCount) (r.position (i + 1)).context.iteration
          (r.decision i) (r.position (i + 1)).context.elapsed)]
    else [.logged (.declined (min (i + 1) maxCount))]

/-- What happens before turn `n` when a run comes to it. -/
def history (n : Nat) : List (Happening α ε) :=
  (List.range n).flatMap fun i => r.callTrace i ++ [.slept (r.delay i) true]

theorem history_succ (n : Nat) :
    r.history (n + 1) = r.history n ++ (r.callTrace n ++ [.slept (r.delay n) true]) := by
  rw [history, List.range_succ, List.flatMap_append, ← history]
  simp

/-! ### Where a run stands -/

/-- The sleeps that are recorded before call `n`. -/
def recordedAt (n : Nat) : List Duration :=
  r.runner.sleeper.record r.session.recorded ((List.range n).map r.delay)

theorem recordedAt_succ (n : Nat) :
    r.recordedAt (n + 1) = r.runner.sleeper.record (r.recordedAt n) [r.delay n] := by
  cases h : r.runner.sleeper <;> simp [recordedAt, Sleeper.record, h, List.range_succ]

theorem length_recordedAt {c : Option Nat} (h : r.runner.sleeper = .recording c) (n : Nat) :
    (r.recordedAt n).length = r.session.recorded.length + n := by
  simp [recordedAt, Sleeper.record, h]

/-- Where a run stands before turn `n`. The session is then not cancelled, unless it was so when the
run began. -/
def cycleAt (n : Nat) : Cycle r.job where
  state := some (r.position n).state
  context := (r.position n).context
  attempt := min n maxCount
  calls := n
  kept := r.operation.kept r.outcome n
  session := ⟨n == 0 && r.session.cancelled, r.recordedAt n, r.session.noticed + n⟩
  world := (r.position n).world

/-- Where a run stands when call `i` was taken in, before the sleep that may follow. The session is
then cancelled or not. -/
def cycleAfter (i : Nat) (cancelled : Bool) : Cycle r.job where
  state :=
    if r.Accepts i then
      if (r.decision i).continues then some (r.position (i + 1)).state else none
    else some (r.position i).state
  context := (r.position (r.decided i)).context
  attempt := min (i + 1) maxCount
  calls := i + 1
  kept := if r.GoesOn i then r.operation.kept r.outcome (i + 1) else r.operation.kept r.outcome i
  session := ⟨cancelled, r.recordedAt i, r.session.noticed + r.decided i⟩
  world := (r.position (r.decided i)).world

/-- Whether the session is cancelled when a call was taken in. -/
def cancelledByCall (i : Nat) : Bool := decide (r.CancelledByEffect i ∨ r.CancelledByObserver i)

/-- A whole run that is stopped by the check before call `k`. -/
def stopped (k : Nat) : Done r.job (Except (RunError ε) β) :=
  ⟨r.history k ++ [.logged (.cancelled (min k maxCount))], .error .cancelled,
    (r.cycleAt k).checked r.runner⟩

/-- A whole run that ends with call `k`. -/
def finish (k : Nat) : Done r.job (Except (RunError ε) β) :=
  if r.GoesOn k then
    ⟨r.history k ++ r.callTrace k ++
        [.slept (r.delay k) false, .logged (.interrupted (min (k + 1) maxCount))],
      .error .cancelled, r.cycleAfter k true⟩
  else ⟨r.history k ++ r.callTrace k, r.operation.result r.outcome k,
    r.cycleAfter k (r.cancelledByCall k)⟩

/-- A whole run whose last turn is turn `k`. -/
def whole (k : Nat) : Done r.job (Except (RunError ε) β) :=
  if r.CancelledBefore k then r.stopped k else r.finish k

/-! ### One turn -/

theorem accepts_iff (i : Nat) : r.job.plan.accepts (r.outcome i) = true ↔ r.Accepts i :=
  r.operation.accepts_plan (r.outcome i)

/-- Where a run stands when the check has let it come to call `i`. -/
def cycleBefore (i : Nat) : Cycle r.job :=
  { r.cycleAt i with session := ⟨false, r.recordedAt i, r.session.noticed + i⟩ }

/-- Where a run stands in call `i`, when the effect has returned. -/
def cycleIn (i : Nat) : Cycle r.job :=
  { r.cycleBefore i with
    calls := i + 1
    session := (r.cycleBefore i).session.cancelIf (r.effect i).cancels }

variable {r} {i : Nat}

/-- The session that the check before a call finds. -/
theorem checked_cycleAt (i : Nat) :
    (r.cycleAt i).checked r.runner =
      { r.cycleAt i with
        session := ⟨decide (r.CancelledBefore i), r.recordedAt i, r.session.noticed + i⟩ } := by
  have hcancelled : ((i == 0 && r.session.cancelled) || r.runner.outside.check i) =
      decide (r.CancelledBefore i) := by
    rw [Bool.eq_iff_iff, decide_eq_true_iff]
    simp [CancelledBefore]
  rw [Cycle.checked, Session.cancelIf_eq]
  simp only [cycleAt, hcancelled]

theorem checked_of_not_cancelledBefore (h : ¬ r.CancelledBefore i) :
    (r.cycleAt i).checked r.runner = r.cycleBefore i := by
  rw [checked_cycleAt, decide_eq_false h]
  rfl

theorem decide_of_accepts (h : r.Accepts i) :
    (r.cycleIn i).decide r.runner (r.outcome i) =
      ⟨[.noticed (r.event i),
          .logged (.decided (min (i + 1) maxCount) (r.position (i + 1)).context.iteration
            (r.decision i) (r.position (i + 1)).context.elapsed)],
        r.decision i,
        { r.cycleAfter i (r.cancelledByCall i) with kept := r.operation.kept r.outcome i }⟩ := by
  have haccepts := (r.accepts_iff i).mpr h
  have hdecided : r.decided i = i + 1 := if_pos h
  have hcancelled : r.cancelledByCall i =
      ((r.effect i).cancels || r.runner.observer (r.session.noticed + i) (r.event i)) := by
    simp [cancelledByCall, CancelledByEffect, CancelledByObserver, h]
  rw [Cycle.decide, if_pos haccepts]
  simp only [cycleAfter, cycleIn, cycleBefore, cycleAt, hdecided, hcancelled, h, if_true,
    countUp_min, Session.cancelIf_eq]
  rfl

theorem decide_of_not_accepts (h : ¬ r.Accepts i) :
    (r.cycleIn i).decide r.runner (r.outcome i) =
      ⟨[.logged (.declined (min (i + 1) maxCount))], .complete,
        { r.cycleAfter i (r.cancelledByCall i) with kept := r.operation.kept r.outcome i }⟩ := by
  have haccepts := mt (r.accepts_iff i).mp h
  have hdecided : r.decided i = i := if_neg h
  have hcancelled : r.cancelledByCall i = (r.effect i).cancels := by
    simp [cancelledByCall, CancelledByEffect, CancelledByObserver, h]
  rw [Cycle.decide, if_neg haccepts]
  simp only [cycleAfter, cycleIn, cycleBefore, cycleAt, hdecided, hcancelled, h, if_false,
    countUp_min, Session.cancelIf_eq, Bool.false_or]

theorem call_cycleBefore (i : Nat) :
    (r.cycleBefore i).call r.runner =
      let made := (r.cycleIn i).decide r.runner (r.outcome i)
      let trace := .called (r.outcome i) :: made.trace
      match r.operation.plan.absorb (r.operation.kept r.outcome i) (r.outcome i)
          made.value.isComplete with
      | .stops result => ⟨trace, .inl result, made.cycle⟩
      | .goesOn kept => ⟨trace, .inr made.value.delay, { made.cycle with kept := kept }⟩ := by
  rfl

theorem call_of_goesOn (h : r.GoesOn i) :
    (r.cycleBefore i).call r.runner =
      ⟨r.callTrace i, .inr (r.delay i), r.cycleAfter i (r.cancelledByCall i)⟩ := by
  have hdone : (r.decision i).isComplete = false := by
    rw [Decision.isComplete_eq_not_continues, h.2]
    rfl
  rw [call_cycleBefore, decide_of_accepts h.1]
  simp only [hdone, r.operation.absorb_false r.outcome h.1, callTrace, if_pos h.1,
    cycleAfter, if_pos h]
  rfl

theorem call_of_not_goesOn (h : ¬ r.GoesOn i) :
    (r.cycleBefore i).call r.runner =
      ⟨r.callTrace i, .inl (r.operation.result r.outcome i),
        r.cycleAfter i (r.cancelledByCall i)⟩ := by
  by_cases ha : r.Accepts i
  · have hdone : (r.decision i).isComplete = true := by
      rw [Decision.isComplete_eq_not_continues]
      simpa [GoesOn, ha] using h
    rw [call_cycleBefore, decide_of_accepts ha]
    simp only [hdone, r.operation.absorb_true, callTrace, if_pos ha, cycleAfter, if_neg h]
  · rw [call_cycleBefore, decide_of_not_accepts ha]
    simp only [Decision.isComplete, r.operation.absorb_true, callTrace, if_neg ha, cycleAfter,
      if_neg h]

/-- The sleep that follows a call is interrupted exactly if the session is cancelled in its turn. -/
theorem sleep_session (h : r.GoesOn i) (noticed : Nat) :
    r.runner.sleeper.sleep (r.delay i) (r.runner.outside.sleep (i + 1))
        ⟨r.cancelledByCall i, r.recordedAt i, noticed⟩ =
      if r.CancelledIn i then (false, ⟨true, r.recordedAt i, noticed⟩)
      else (true, ⟨false, r.recordedAt (i + 1), noticed⟩) := by
  have houtside : r.CancelledByOutside i ↔ r.runner.outside.sleep (i + 1) = true :=
    and_iff_right h
  -- whoever cancels the session, the sleeper finds it so, unless the sleeper itself does it
  by_cases hfound : (r.cancelledByCall i || r.runner.outside.sleep (i + 1)) = true
  · have hin : r.CancelledIn i := by
      simp only [cancelledByCall, Bool.or_eq_true, decide_eq_true_eq, ← houtside] at hfound
      rcases hfound with (heffect | hobserver) | houtside
      · exact Or.inl heffect
      · exact Or.inr (Or.inl hobserver)
      · exact Or.inr (Or.inr (Or.inr houtside))
    rw [if_pos hin, Sleeper.sleep_of_cancelled _ _ hfound]
  · obtain ⟨hcall, hmeanwhile⟩ := Bool.or_eq_false_iff.mp (Bool.not_eq_true _ |>.mp hfound)
    have hin : r.CancelledIn i ↔ r.CancelledBySleeper i := by
      have hcall' := of_decide_eq_false hcall
      rw [not_or] at hcall'
      simp only [CancelledIn, hcall'.1, hcall'.2, houtside, hmeanwhile, Bool.false_eq_true,
        or_false, false_or]
    have hsleeper : r.runner.sleeper = .recording (some (r.recordedAt i).length) ↔
        r.CancelledBySleeper i := by
      refine ⟨fun hs => ⟨h, ?_⟩, fun hs => ?_⟩
      · rwa [r.length_recordedAt hs] at hs
      · rw [r.length_recordedAt hs.2]
        exact hs.2
    rw [hcall, hmeanwhile, Sleeper.sleep_of_not_cancelled, ← recordedAt_succ]
    simp only [hin, hsleeper]

theorem session_cycleAfter (i : Nat) (cancelled : Bool) :
    (r.cycleAfter i cancelled).session =
      ⟨cancelled, r.recordedAt i, r.session.noticed + r.decided i⟩ :=
  rfl

theorem calls_cycleAfter (i : Nat) (cancelled : Bool) :
    (r.cycleAfter i cancelled).calls = i + 1 :=
  rfl

theorem sleep_of_cancelledIn (h : r.GoesOn i) (hc : r.CancelledIn i) :
    (r.cycleAfter i (r.cancelledByCall i)).sleep r.runner (r.delay i) =
      ⟨[.slept (r.delay i) false, .logged (.interrupted (min (i + 1) maxCount))],
        some (.error .cancelled), r.cycleAfter i true⟩ := by
  rw [Cycle.sleep, session_cycleAfter, calls_cycleAfter, sleep_session h, if_pos hc]
  rfl

theorem sleep_of_not_cancelledIn (h : r.GoesOn i) (hc : ¬ r.CancelledIn i) :
    (r.cycleAfter i (r.cancelledByCall i)).sleep r.runner (r.delay i) =
      ⟨[.slept (r.delay i) true], none, r.cycleAt (i + 1)⟩ := by
  rw [Cycle.sleep, session_cycleAfter, calls_cycleAfter, sleep_session h, if_neg hc]
  simp only [cycleAfter, cycleAt, decided, if_pos h.1, h.2, if_pos h, if_true]
  rfl

/-- A turn that begins with a call. -/
theorem turn_of_not_cancelledBefore (h : ¬ r.CancelledBefore i) :
    (r.cycleAt i).turn r.runner =
      let called := (r.cycleBefore i).call r.runner
      match called.value with
      | .inl result => ⟨called.trace, some result, called.cycle⟩
      | .inr delay =>
        let slept := called.cycle.sleep r.runner delay
        ⟨called.trace ++ slept.trace, slept.value, slept.cycle⟩ := by
  rw [Cycle.turn, checked_of_not_cancelledBefore h]
  exact if_neg Bool.false_ne_true

theorem turn_of_cancelledBefore (h : r.CancelledBefore i) :
    (r.cycleAt i).turn r.runner =
      ⟨[.logged (.cancelled (min i maxCount))], some (.error .cancelled),
        (r.cycleAt i).checked r.runner⟩ := by
  have hcancelled : ((r.cycleAt i).checked r.runner).session.cancelled = true := by
    rw [checked_cycleAt]
    exact decide_eq_true h
  rw [Cycle.turn]
  exact if_pos hcancelled

theorem turn_of_not_goesOn (hb : ¬ r.CancelledBefore i) (h : ¬ r.GoesOn i) :
    (r.cycleAt i).turn r.runner =
      ⟨r.callTrace i, some (r.operation.result r.outcome i),
        r.cycleAfter i (r.cancelledByCall i)⟩ := by
  rw [turn_of_not_cancelledBefore hb, call_of_not_goesOn h]

theorem turn_of_cancelledIn (hb : ¬ r.CancelledBefore i) (h : r.GoesOn i) (hc : r.CancelledIn i) :
    (r.cycleAt i).turn r.runner =
      ⟨r.callTrace i ++
          [.slept (r.delay i) false, .logged (.interrupted (min (i + 1) maxCount))],
        some (.error .cancelled), r.cycleAfter i true⟩ := by
  rw [turn_of_not_cancelledBefore hb, call_of_goesOn h]
  simp only [sleep_of_cancelledIn h hc]

theorem turn_of_followed (h : r.Followed i) :
    (r.cycleAt i).turn r.runner =
      ⟨r.callTrace i ++ [.slept (r.delay i) true], none, r.cycleAt (i + 1)⟩ := by
  obtain ⟨hb, hgoes, hc⟩ := h
  rw [turn_of_not_cancelledBefore hb, call_of_goesOn hgoes]
  simp only [sleep_of_not_cancelledIn hgoes hc]

/-- The last turn of a run. -/
theorem turn_of_not_followed (h : ¬ r.Followed i) :
    ∃ trace, (r.cycleAt i).turn r.runner = ⟨trace, some (r.whole i).value, (r.whole i).cycle⟩ ∧
      (r.whole i).trace = r.history i ++ trace := by
  by_cases hb : r.CancelledBefore i
  · rw [turn_of_cancelledBefore hb, whole, if_pos hb]
    exact ⟨_, rfl, rfl⟩
  · rw [whole, if_neg hb, finish]
    by_cases hgoes : r.GoesOn i
    · have hc : r.CancelledIn i := Decidable.not_not.mp fun hc => h ⟨hb, hgoes, hc⟩
      rw [turn_of_cancelledIn hb hgoes hc, if_pos hgoes]
      exact ⟨_, rfl, List.append_assoc _ _ _⟩
    · rw [turn_of_not_goesOn hb hgoes, if_neg hgoes]
      exact ⟨_, rfl, rfl⟩

end Run

/-! ### Turn after turn -/

/-- More turns go on where a run stands that has no result. -/
theorem Cycle.drive_add {job : Job σ α ε τ β} (runner : Runner α ε) (m n : Nat) (c : Cycle job)
    (h : (c.drive runner m).value = none) :
    c.drive runner (m + n) =
      let rest := (c.drive runner m).cycle.drive runner n
      ⟨(c.drive runner m).trace ++ rest.trace, rest.value, rest.cycle⟩ := by
  induction m generalizing c with
  | zero => simp [drive]
  | succ m ih =>
    rw [show m + 1 + n = m + n + 1 by omega]
    simp only [drive] at h ⊢
    split at h
    · simp at h
    · simp only [ih _ h, List.append_assoc]

/-- More turns change nothing in a run that has a result. -/
theorem Cycle.drive_of_result {job : Job σ α ε τ β} (runner : Runner α ε) {m n : Nat} (hmn : m ≤ n)
    (c : Cycle job) (h : (c.drive runner m).value ≠ none) :
    c.drive runner n = c.drive runner m := by
  induction m generalizing c n with
  | zero => simp [drive] at h
  | succ m ih =>
    obtain ⟨n, rfl⟩ : ∃ k, n = k + 1 := ⟨n - 1, by omega⟩
    simp only [drive] at h ⊢
    split at h
    · rfl
    · rw [ih (by omega) _ h]

/-- A single turn, if it brings a result or none. -/
theorem Cycle.drive_one {job : Job σ α ε τ β} (runner : Runner α ε) (c : Cycle job) :
    c.drive runner 1 = c.turn runner := by
  simp only [drive]
  split <;> rename_i h <;> simp [← h]

namespace Run
variable {r : Run σ α ε τ β}

theorem begin_eq (r : Run σ α ε τ β) : r.job.begin r.session r.world = r.cycleAt 0 := by
  have hsession : r.session =
      ⟨0 == 0 && r.session.cancelled, r.recordedAt 0, r.session.noticed + 0⟩ := by
    rw [recordedAt, List.range_zero, List.map_nil, Sleeper.record_nil]
    rfl
  have hkept : r.operation.plan.start = r.operation.kept r.outcome 0 := r.operation.plan_start _
  rw [Job.begin, cycleAt, ← hsession, ← hkept]
  rfl

theorem turns_eq_drive (r : Run σ α ε τ β) (n : Nat) :
    r.turns n = (r.cycleAt 0).drive r.runner n := by
  rw [turns, Runner.run, begin_eq]

/-- One more turn. -/
theorem turns_succ {n : Nat} (h : (r.turns n).value = none) :
    r.turns (n + 1) =
      let turned := (r.turns n).cycle.turn r.runner
      ⟨(r.turns n).trace ++ turned.trace, turned.value, turned.cycle⟩ := by
  rw [turns_eq_drive] at h ⊢
  rw [Cycle.drive_add _ _ _ _ h, Cycle.drive_one, turns_eq_drive]

/-- **The turns before the last.** -/
theorem turns_of_undisturbed {n : Nat} (h : r.Undisturbed n) :
    r.turns n = ⟨r.history n, none, r.cycleAt n⟩ := by
  induction n with
  | zero => rw [turns_eq_drive]; rfl
  | succ n ih =>
    have hn := ih fun i hi => h i (Nat.lt_succ_of_lt hi)
    rw [turns_succ (by rw [hn]), hn, turn_of_followed (h n (Nat.lt_succ_self n)), history_succ]

/-- **A run up to its end.** Turns beyond the last change nothing. -/
theorem turns_of_lastTurn {k n : Nat} (h : r.LastTurn k) (hn : k < n) :
    r.turns n = ⟨(r.whole k).trace, some (r.whole k).value, (r.whole k).cycle⟩ := by
  have hk := turns_of_undisturbed h.1
  obtain ⟨trace, hturn, htrace⟩ := turn_of_not_followed h.2
  have hlast : r.turns (k + 1) =
      ⟨(r.whole k).trace, some (r.whole k).value, (r.whole k).cycle⟩ := by
    rw [turns_succ (by rw [hk]), hk, hturn, htrace]
  rw [← hlast]
  exact Cycle.drive_of_result _ (Nat.succ_le_of_lt hn) _
    (show (r.turns (k + 1)).value ≠ none by rw [hlast]; exact Option.some_ne_none _)

/-! ### The last turn -/

theorem LastTurn.unique {j k : Nat} (hj : r.LastTurn j) (hk : r.LastTurn k) : j = k :=
  eq_of_first hj.1 hj.2 hk.1 hk.2

/-- Either the first `n` turns are all followed by another one, or one of them is the last. -/
theorem undisturbed_or_lastTurn (r : Run σ α ε τ β) (n : Nat) :
    r.Undisturbed n ∨ ∃ k < n, r.LastTurn k :=
  forall_or_exists_first r.Followed n

end Run

end Cadence
