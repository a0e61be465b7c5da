import Cadence.Proofs.Expr.Continuations
import Cadence.Proofs.Run.Gated
import Cadence.Proofs.Schedule.Sequence

/-!
# Where a budget cuts a schedule off

A schedule with a limit on the sum of its delays makes the decisions that it makes without it, up to
the first for which there is no place: the delays before it have reached the limit, or its own delay
goes beyond it. It is complete there. So the delays of a run never add up to more than the limit,
and delays of at least some length leave no more decisions than fit into it.

## Scope

The delays are added up in the context of the run, where the sum is cut off at the longest duration.
If that is the limit, the sum never goes beyond it whatever the delays are, so only a limit below
the longest duration bounds the exact sum.

## Main definitions

* `Decision.total` — the sum of the delays of decisions as the context has it
* `Decision.CutsAt` — a limit leaves no place for one of the decisions
* `Policy.StaysWithin` — a policy that adds no delay that goes beyond a limit
* `Schedule.KeepsBudget` — how a schedule with a limit goes

## Main results

* `Schedule.decisions_of_cutsAt`, `Schedule.decisions_of_not_cutsAt` — the dry run with a limit
* `Policy.StaysWithin.elapsed_le` — the sum of the delays stays within the limit
* `Schedule.keepsBudget` — a schedule with a limit keeps to it
-/

namespace Cadence

variable {σ α ε τ β : Type}

/-! ### Sums of delays -/

namespace Decision

/-- The delays of decisions, added up one after the other. The sum is cut off at the longest
duration. -/
def total (ds : List Decision) : Duration := ds.foldl (fun sum d => sum + d.delay) 0

theorem total_concat (ds : List Decision) (d : Decision) : total (ds ++ [d]) = total ds + d.delay :=
  List.foldl_append

theorem totalNanos_concat (ds : List Decision) (d : Decision) :
    totalNanos (ds ++ [d]) = totalNanos ds + d.delay.nanos :=
  List.foldl_append

/-- Cutting off the sum after each delay is the same as cutting off the exact sum. -/
theorem nanos_total (ds : List Decision) :
    (total ds).nanos = min (totalNanos ds) Duration.maxNanos := by
  induction ds using List.reverseRecOn with
  | nil => rfl
  | append_singleton ds d ih =>
    rw [total_concat, totalNanos_concat, Duration.nanos_add, ih]
    omega

/-- A sum that is below the longest duration is exact. -/
theorem totalNanos_le_of_total_le {ds : List Decision} {limit : Duration} (h : total ds ≤ limit)
    (hlimit : limit < .longest) : totalNanos ds ≤ limit.nanos := by
  rw [Duration.le_def, nanos_total] at h
  rw [Duration.lt_def, Duration.nanos_longest] at hlimit
  omega

/-! ### Decisions without a place -/

/-- Whether a limit leaves no place for a decision after delays that add up to `sum`: they have
reached the limit, or the decision continues with a delay that goes beyond it. -/
def CutOffBy (limit sum : Duration) (d : Decision) : Prop :=
  limit ≤ sum ∨ (d.continues = true ∧ limit < sum + d.delay)

instance (limit sum : Duration) (d : Decision) : Decidable (CutOffBy limit sum d) :=
  inferInstanceAs (Decidable (_ ∨ _))

/-- Where there is a place for a decision, its delay does not go beyond the limit. -/
theorem add_delay_le_of_not_cutOffBy {limit sum : Duration} {d : Decision}
    (h : ¬ CutOffBy limit sum d) : sum < limit ∧ sum + d.delay ≤ limit := by
  obtain ⟨hspent, hplace⟩ := not_or.mp h
  refine ⟨Duration.not_le.mp hspent, ?_⟩
  rcases d.continues_or_complete with hcontinues | rfl
  · exact Duration.not_lt.mp fun hbeyond => hplace ⟨hcontinues, hbeyond⟩
  · rw [show complete.delay = 0 from rfl, Duration.add_zero]
    exact Nat.le_of_not_le hspent

/-- Whether a limit leaves no place for decision `k` of a list, after the ones before it. -/
def CutsAt (limit : Duration) (ds : List Decision) (k : Nat) : Prop :=
  ∃ d ∈ ds[k]?, CutOffBy limit (total (ds.take k)) d

instance (limit : Duration) (ds : List Decision) (k : Nat) : Decidable (CutsAt limit ds k) :=
  inferInstanceAs (Decidable (∃ d ∈ ds[k]?, CutOffBy limit (total (ds.take k)) d))

theorem cutsAt_map_range {limit : Duration} {f : Nat → Decision} {m k : Nat} :
    CutsAt limit ((List.range m).map f) k ↔
      k < m ∧ CutOffBy limit (total ((List.range k).map f)) (f k) := by
  have htake (hk : k < m) : ((List.range m).map f).take k = (List.range k).map f := by
    rw [← List.map_take, List.take_range, Nat.min_eq_left (Nat.le_of_lt hk)]
  constructor
  · rintro ⟨d, hd, hcut⟩
    obtain ⟨hlength, rfl⟩ := List.getElem?_eq_some_iff.mp hd
    have hk : k < m := by simpa using hlength
    rw [htake hk, List.getElem_map, List.getElem_range] at hcut
    exact ⟨hk, hcut⟩
  · rintro ⟨hk, hcut⟩
    rw [← htake hk] at hcut
    exact ⟨f k, by simp [hk], hcut⟩

end Decision

/-- The context has the sum of the delays of a policy. -/
theorem Policy.total_map_decisionAt (p : Policy σ α ε) (outcomes : Nat → Except ε α) (world : σ)
    (n : Nat) : Decision.total ((List.range n).map (p.decisionAt outcomes world)) =
      (p.position outcomes world n).context.elapsed := by
  induction n with
  | zero => rfl
  | succ n ih =>
    rw [List.range_succ, List.map_append, List.map_singleton, Decision.total_concat, ih]
    rfl

namespace Schedule

variable {s : Schedule σ} {world : σ} {limit : Duration}

/-- The context has the sum of the delays of a schedule. -/
theorem total_map_decisionAt (s : Schedule σ) (world : σ) (n : Nat) :
    Decision.total ((List.range n).map (s.decisionAt world)) =
      (s.position world n).context.elapsed := by
  have htotal := (s.policy : Policy σ Unit Unit).total_map_decisionAt (fun _ => .ok ()) world n
  rw [policy_position] at htotal
  rw [← htotal]
  exact congrArg _ (List.map_congr_left fun i _ => (s.policy_decisionAt world _ i).symm)

/-! ### One step -/

section Step

variable {state : s.State} {context : Context}

/-- A schedule with a limit is complete where there is no place for its next decision. -/
theorem step_of_cutOffBy
    (h : Decision.CutOffBy limit context.elapsed (s.step state context world).decision) :
    ((s.maxCumulativeDelay limit).step state context world).decision = .complete := by
  simp only [maxCumulativeDelay]
  by_cases hspent : limit ≤ context.elapsed
  · rw [if_pos hspent]
  · obtain ⟨hcontinues, hbeyond⟩ := h.resolve_left hspent
    rw [if_neg hspent, Decision.delay?_of_continues hcontinues]
    exact congrArg Step.decision (if_pos hbeyond)

/-- As long as there is a place for the next decision, the limit changes nothing. -/
theorem step_of_not_cutOffBy
    (h : ¬ Decision.CutOffBy limit context.elapsed (s.step state context world).decision) :
    (s.maxCumulativeDelay limit).step state context world = s.step state context world :=
  step_of_room (Decision.add_delay_le_of_not_cutOffBy h).1
    (Decision.add_delay_le_of_not_cutOffBy h).2

/-- No delay goes beyond the limit. -/
theorem elapsed_add_delay_le (s : Schedule σ) (limit : Duration) (state : s.State) (world : σ)
    (h : context.elapsed ≤ limit) :
    context.elapsed + ((s.maxCumulativeDelay limit).step state context world).decision.delay ≤
      limit := by
  by_cases hcut : Decision.CutOffBy limit context.elapsed (s.step state context world).decision
  · rw [step_of_cutOffBy hcut, show Decision.complete.delay = 0 from rfl, Duration.add_zero]
    exact h
  · rw [step_of_not_cutOffBy hcut]
    exact (Decision.add_delay_le_of_not_cutOffBy hcut).2

end Step

/-! ### The dry run -/

/-- Whether a limit leaves no place for decision `k` of a schedule. -/
def CutOffAt (s : Schedule σ) (limit : Duration) (world : σ) (k : Nat) : Prop :=
  Decision.CutOffBy limit (s.position world k).context.elapsed (s.decisionAt world k)

theorem cutsAt_map_decisionAt {m k : Nat} :
    Decision.CutsAt limit ((List.range m).map (s.decisionAt world)) k ↔
      k < m ∧ s.CutOffAt limit world k := by
  rw [Decision.cutsAt_map_range, total_map_decisionAt]
  rfl

/-- Where there is no place for a decision, the exact sums say so as well. -/
theorem CutOffAt.le_spent_or_lt {k : Nat} (h : s.CutOffAt limit world k) :
    limit.nanos ≤ s.spent world k ∨ ((s.decisionAt world k).continues = true ∧
      limit.nanos < s.spent world k + (s.decisionAt world k).delay.nanos) := by
  have helapsed := nanos_elapsed_position s world k
  rcases h with hreached | ⟨hcontinues, hbeyond⟩
  · rw [Duration.le_def] at hreached
    exact Or.inl (by omega)
  · rw [Duration.lt_def, Duration.nanos_add] at hbeyond
    exact Or.inr ⟨hcontinues, by omega⟩

/-- Up to the first decision without a place, the limit changes nothing. -/
theorem position_of_not_cutOffAt {n : Nat} (h : ∀ i < n, ¬ s.CutOffAt limit world i) :
    (s.maxCumulativeDelay limit).position world n = s.position world n := by
  induction n with
  | zero => rfl
  | succ n ih =>
    have hposition := ih fun i hi => h i (Nat.lt_succ_of_lt hi)
    have hplace := h n (Nat.lt_succ_self n)
    rw [position_succ, position_succ, stepAt, hposition, step_of_not_cutOffBy hplace]
    rfl

theorem decisionAt_of_not_cutOffAt {n : Nat} (h : ∀ i < n + 1, ¬ s.CutOffAt limit world i) :
    (s.maxCumulativeDelay limit).decisionAt world n = s.decisionAt world n := by
  rw [decisionAt, stepAt, position_of_not_cutOffAt fun i hi => h i (Nat.lt_succ_of_lt hi),
    step_of_not_cutOffBy (h n (Nat.lt_succ_self n))]
  rfl

/-- After decisions that continue, a schedule with a limit decides what it decides without the
limit, or it is cut off. -/
theorem decisionAt_eq_or_cutOffAt {n : Nat}
    (h : ∀ i < n, ((s.maxCumulativeDelay limit).decisionAt world i).continues = true) :
    (s.maxCumulativeDelay limit).decisionAt world n = s.decisionAt world n ∨
      ((s.maxCumulativeDelay limit).decisionAt world n = .complete ∧
        s.CutOffAt limit world n) := by
  rw [decisionAt, stepAt, position_of_continues h]
  by_cases hcut : s.CutOffAt limit world n
  · exact Or.inr ⟨step_of_cutOffBy hcut, hcut⟩
  · refine Or.inl ?_
    rw [step_of_not_cutOffBy hcut]
    rfl

/-- As long as a schedule with a limit continues, it decides what it decides without the limit. -/
theorem decisionAt_of_continues {n : Nat}
    (h : ∀ i < n, ((s.maxCumulativeDelay limit).decisionAt world i).continues = true) {i : Nat}
    (hi : i < n) : (s.maxCumulativeDelay limit).decisionAt world i = s.decisionAt world i := by
  rcases decisionAt_eq_or_cutOffAt fun j (hj : j < i) => h j (Nat.lt_trans hj hi) with
    hsame | ⟨hcomplete, -⟩
  · exact hsame
  · have hcontinues := h i hi
    rw [hcomplete] at hcontinues
    exact absurd hcontinues Bool.false_ne_true

/-- A schedule with a limit is complete at the first decision without a place, if it continues up to
there without the limit. -/
theorem completesAt_of_cutOffAt {k : Nat} (hcut : s.CutOffAt limit world k)
    (hfirst : ∀ i < k, ¬ s.CutOffAt limit world i)
    (hcontinues : ∀ i < k, (s.decisionAt world i).continues = true) :
    (s.maxCumulativeDelay limit).CompletesAt world k := by
  constructor
  · intro i hi
    rw [decisionAt_of_not_cutOffAt fun j hj => hfirst j (Nat.lt_of_lt_of_le hj hi)]
    exact hcontinues i hi
  · rw [decisionAt, stepAt, position_of_not_cutOffAt hfirst]
    exact step_of_cutOffBy hcut

/-- The dry run with a limit, if there is a first decision without a place: it is complete there. -/
theorem decisions_of_cutsAt {n k : Nat}
    (hcut : Decision.CutsAt limit ((s.dryRun world).decisions n).1 k)
    (hfirst : ∀ i < k, ¬ Decision.CutsAt limit ((s.dryRun world).decisions n).1 i) :
    (((s.maxCumulativeDelay limit).dryRun world).decisions n).1 =
      ((s.dryRun world).decisions n).1.take k ++ [.complete] := by
  obtain ⟨m, hm, hmade, hcontinues⟩ := DryRun.exists_decisions s world n
  simp only [hmade, cutsAt_map_decisionAt] at hcut hfirst ⊢
  obtain ⟨hk, hcut⟩ := hcut
  have hplace : ∀ i < k, ¬ s.CutOffAt limit world i :=
    fun i hi hcutOff => hfirst i hi ⟨Nat.lt_trans hi hk, hcutOff⟩
  have hcompletes := completesAt_of_cutOffAt hcut hplace fun i hi =>
    hcontinues i (Nat.lt_of_le_of_lt hi hk)
  have hsame : (List.range k).map ((s.maxCumulativeDelay limit).decisionAt world) =
      (List.range k).map (s.decisionAt world) :=
    List.map_congr_left fun i hi => decisionAt_of_not_cutOffAt fun j hj =>
      hplace j (Nat.lt_of_lt_of_le hj (List.mem_range.mp hi))
  rw [DryRun.decisions_of_completesAt hcompletes (Nat.lt_of_lt_of_le hk hm), List.range_succ,
    List.map_append, hsame, List.map_singleton, hcompletes.2, ← List.map_take, List.take_range,
    Nat.min_eq_left (Nat.le_of_lt hk)]

/-- The dry run with a limit, if there is a place for every decision: the limit does not matter. -/
theorem decisions_of_not_cutsAt {n : Nat}
    (h : ∀ k, ¬ Decision.CutsAt limit ((s.dryRun world).decisions n).1 k) :
    (((s.maxCumulativeDelay limit).dryRun world).decisions n).1 =
      ((s.dryRun world).decisions n).1 := by
  obtain ⟨m, -, hmade, -⟩ := DryRun.exists_decisions s world n
  simp only [hmade, cutsAt_map_decisionAt, not_and] at h
  refine DryRun.decisions_eq_of_decisionAt fun i hi => ?_
  rw [hmade, List.length_map, List.length_range] at hi
  exact decisionAt_of_not_cutOffAt fun j hj => h j (Nat.lt_of_lt_of_le hj hi)

end Schedule

/-! ### The sum of the delays -/

/-- The delays of decisions stay within a limit: their sum as it is added up does, and the exact sum
as well if the limit is below the longest duration. -/
structure Decision.Within (limit : Duration) (ds : List Decision) : Prop where
  /-- The sum, cut off at the longest duration, does not go beyond the limit. -/
  total_le : total ds ≤ limit
  /-- Below the longest duration no sum is cut off. -/
  totalNanos_le : limit < .longest → totalNanos ds ≤ limit.nanos

theorem Decision.within_of_total_le {limit : Duration} {ds : List Decision} (h : total ds ≤ limit) :
    Within limit ds :=
  ⟨h, fun hlimit => totalNanos_le_of_total_le h hlimit⟩

/-- A policy adds no delay to a sum within the limit that goes beyond it. -/
def Policy.StaysWithin (p : Policy σ α ε) (limit : Duration) : Prop :=
  ∀ (state : p.State) (context : Context) (outcome : Except ε α) (world : σ),
    context.elapsed ≤ limit →
      context.elapsed + (p.step state context outcome world).decision.delay ≤ limit

namespace Policy.StaysWithin

variable {p : Policy σ α ε} {limit : Duration}

/-- Step by step the sum of the delays stays within the limit. -/
theorem elapsed_le (h : p.StaysWithin limit) (outcomes : Nat → Except ε α) (world : σ) (n : Nat) :
    (p.position outcomes world n).context.elapsed ≤ limit := by
  induction n with
  | zero => exact Duration.zero_le limit
  | succ n ih => exact h _ _ _ _ ih

/-- At any time, the delays that can be seen of a run stay within the limit. -/
theorem within_upTo {r : Run σ α ε τ β} (h : r.policy.StaysWithin limit) (driver : Driver)
    (n : Nat) : Decision.Within limit (Happening.decisions (r.upTo driver n).trace) := by
  obtain ⟨j, hdecisions, -⟩ := r.exists_decisions_upTo driver n
  refine Decision.within_of_total_le ?_
  have htotal := r.policy.total_map_decisionAt r.outcome r.world j
  rw [hdecisions, show r.decision = r.policy.decisionAt r.outcome r.world from rfl, htotal]
  exact h.elapsed_le r.outcome r.world j

end Policy.StaysWithin

namespace Schedule

variable {s : Schedule σ} {world : σ} {limit : Duration}

/-- A schedule with a limit stays within it, also with a gate. -/
theorem Steers.staysWithin {p : Policy σ α ε} (h : (s.maxCumulativeDelay limit).Steers p) :
    p.StaysWithin limit := by
  intro state context outcome world helapsed
  cases h with
  | plain => exact elapsed_add_delay_le s limit state world helapsed
  | gated test wanted =>
    simp only [Schedule.gated]
    split
    · exact elapsed_add_delay_le s limit state world helapsed
    · exact (Duration.add_zero context.elapsed).symm ▸ helapsed

theorem elapsed_le_limit (s : Schedule σ) (limit : Duration) (world : σ) (n : Nat) :
    ((s.maxCumulativeDelay limit).position world n).context.elapsed ≤ limit := by
  have h : Steers _ ((s.maxCumulativeDelay limit).policy : Policy σ Unit Unit) := .plain
  rw [← (s.maxCumulativeDelay limit).policy_position world fun _ => .ok ()]
  exact h.staysWithin.elapsed_le _ world n

theorem within_map_decisionAt (s : Schedule σ) (limit : Duration) (world : σ) (n : Nat) :
    Decision.Within limit ((List.range n).map ((s.maxCumulativeDelay limit).decisionAt world)) := by
  refine Decision.within_of_total_le ?_
  rw [total_map_decisionAt]
  exact s.elapsed_le_limit limit world n

/-- The exact sum of the delays stays within a limit below the longest duration. -/
theorem spent_le_limit (s : Schedule σ) (hlimit : limit < .longest) (world : σ) (n : Nat) :
    (s.maxCumulativeDelay limit).spent world n ≤ limit.nanos := by
  rw [← totalNanos_map_decisionAt]
  exact (s.within_map_decisionAt limit world n).totalNanos_le hlimit

/-! ### How many delays fit into a limit -/

/-- Delays of at least some length add up to at least as many times that length. -/
theorem mul_le_spent {least : Duration} {n : Nat}
    (h : ∀ i < n, least ≤ (s.decisionAt world i).delay) :
    least.nanos * n ≤ s.spent world n := by
  induction n with
  | zero => exact Nat.zero_le _
  | succ n ih =>
    have hbefore := ih fun i hi => h i (Nat.lt_succ_of_lt hi)
    have hdelay := h n (Nat.lt_succ_self n)
    rw [Duration.le_def] at hdelay
    rw [spent_succ, Nat.mul_succ]
    omega

/-- **No more delays than fit into the limit**: if all delays have at least some length, a schedule
with a limit is complete after as many as there is room for. -/
theorem exists_completesAt_of_delay_le {least : Duration} (hlimit : limit < .longest)
    (hleast : 0 < least.nanos) (h : ∀ n, ∀ d ∈ ((s.dryRun world).decisions n).1,
      d.continues = true → least ≤ d.delay) :
    ∃ k ≤ limit.nanos / least.nanos, (s.maxCumulativeDelay limit).CompletesAt world k := by
  rcases (s.maxCumulativeDelay limit).continues_or_completesAt world
    (limit.nanos / least.nanos + 1) with hall | ⟨k, hk, hcompletes⟩
  · have hsame : ∀ i < limit.nanos / least.nanos + 1,
        (s.maxCumulativeDelay limit).decisionAt world i = s.decisionAt world i :=
      fun i hi => decisionAt_of_continues hall hi
    have hcontinues : ∀ i < limit.nanos / least.nanos + 1,
        (s.decisionAt world i).continues = true := fun i hi => hsame i hi ▸ hall i hi
    have hdelays : ∀ i < limit.nanos / least.nanos + 1,
        least ≤ ((s.maxCumulativeDelay limit).decisionAt world i).delay := by
      intro i hi
      rw [hsame i hi]
      refine h (limit.nanos / least.nanos + 1) _ ?_ (hcontinues i hi)
      rw [DryRun.decisions_of_continues hcontinues]
      exact List.mem_map.mpr ⟨i, List.mem_range.mpr hi, rfl⟩
    -- one delay more than fit would go beyond the limit
    have hroom := Nat.lt_mul_div_succ limit.nanos hleast
    have hspent := s.spent_le_limit hlimit world (limit.nanos / least.nanos + 1)
    exact absurd (Nat.le_trans (mul_le_spent hdelays) hspent) (Nat.not_le_of_lt hroom)
  · exact ⟨k, Nat.le_of_lt_succ hk, hcompletes⟩

theorem spent_spaced (delay : Duration) (world : σ) (n : Nat) :
    (spaced delay).spent world n = delay.nanos * n := by
  induction n with
  | zero => rfl
  | succ n ih =>
    rw [spent_succ, ih]
    rfl

/-- **As many equal delays as fit into the limit**, and no fewer. -/
theorem completesAt_spaced {delay : Duration} (hlimit : limit < .longest) (hdelay : 0 < delay.nanos)
    (world : σ) : ((spaced delay).maxCumulativeDelay limit).CompletesAt world
      (limit.nanos / delay.nanos) := by
  have hdelays : ∀ n, ∀ d ∈ (((spaced delay).dryRun world).decisions n).1,
      d.continues = true → delay ≤ d.delay := by
    intro n d hd _
    obtain ⟨m, -, hmade, -⟩ := DryRun.exists_decisions (spaced delay) world n
    rw [hmade] at hd
    obtain ⟨i, -, rfl⟩ := List.mem_map.mp hd
    exact Duration.le_refl delay
  obtain ⟨k, hk, hcompletes⟩ := exists_completesAt_of_delay_le hlimit hdelay hdelays
  have hcut : (spaced delay).CutOffAt limit world k := by
    rcases decisionAt_eq_or_cutOffAt hcompletes.1 with hsame | ⟨-, hcut⟩
    · exact nomatch hcompletes.2.symm.trans hsame
    · exact hcut
  have hfull : limit.nanos < delay.nanos * (k + 1) := by
    have hlast : ((spaced delay).decisionAt world k).delay = delay := rfl
    have hspent := hcut.le_spent_or_lt
    rw [spent_spaced, hlast] at hspent
    rw [Nat.mul_succ]
    omega
  have hfits : limit.nanos / delay.nanos = k :=
    Nat.le_antisymm (Nat.le_of_lt_succ (Nat.div_lt_of_lt_mul hfull)) hk
  rw [hfits]
  exact hcompletes

/-! ### The whole course -/

/-- How a schedule with a limit on the sum of its delays goes, in comparison with the schedule
without it. -/
structure KeepsBudget (s : Schedule σ) (limit : Duration) (world : σ) : Prop where
  /-- At the first decision without a place, the dry run is complete. -/
  cut : ∀ n k, Decision.CutsAt limit ((s.dryRun world).decisions n).1 k →
    (∀ i < k, ¬ Decision.CutsAt limit ((s.dryRun world).decisions n).1 i) →
      (((s.maxCumulativeDelay limit).dryRun world).decisions n).1 =
        ((s.dryRun world).decisions n).1.take k ++ [.complete]
  /-- If there is a place for every decision, the dry run is the same. -/
  uncut : ∀ n, (∀ k, ¬ Decision.CutsAt limit ((s.dryRun world).decisions n).1 k) →
    (((s.maxCumulativeDelay limit).dryRun world).decisions n).1 = ((s.dryRun world).decisions n).1
  /-- The delays of a dry run stay within the limit. -/
  within : ∀ n,
    Decision.Within limit (((s.maxCumulativeDelay limit).dryRun world).decisions n).1
  /-- So do those of a run at any time, also with a gate, whatever is done in the run, whatever the
  outcomes are, and whoever cancels it. -/
  runs : ∀ {α ε τ β : Type} (r : Run σ α ε τ β), (s.maxCumulativeDelay limit).Steers r.policy →
    ∀ driver n, Decision.Within limit (Happening.decisions (r.upTo driver n).trace)
  /-- With a limit below the longest duration, if all delays have at least some length, there are no
  more of them than fit into the limit, in the dry run and at any time in the same runs. -/
  counted : limit < .longest → ∀ least : Duration, 0 < least.nanos →
    (∀ n, ∀ d ∈ ((s.dryRun world).decisions n).1, d.continues = true → least ≤ d.delay) →
      ∃ k ≤ limit.nanos / least.nanos, (s.maxCumulativeDelay limit).ContinuesTimes world k ∧
        ∀ {α ε τ β : Type} (r : Run σ α ε τ β), (s.maxCumulativeDelay limit).Steers r.policy →
          r.world = world → ∀ driver n,
            (Happening.decisions (r.upTo driver n).trace).countP Decision.continues ≤ k

/-- **A schedule with a limit keeps to it**, whatever it decides without the limit. Of equal delays
it makes exactly as many as fit into the limit. -/
theorem keepsBudget (s : Schedule σ) (limit : Duration) (world : σ) :
    KeepsBudget s limit world ∧ ∀ delay : Duration, 0 < delay.nanos → limit < .longest →
      ((spaced delay).maxCumulativeDelay limit).ContinuesTimes world
        (limit.nanos / delay.nanos) := by
  refine ⟨⟨fun n k => decisions_of_cutsAt, fun n => decisions_of_not_cutsAt, ?_, ?_, ?_⟩, ?_⟩
  · intro n
    obtain ⟨m, -, hmade, -⟩ := DryRun.exists_decisions (s.maxCumulativeDelay limit) world n
    rw [hmade]
    exact s.within_map_decisionAt limit world m
  · exact fun r hsteers driver n => hsteers.staysWithin.within_upTo driver n
  · intro hlimit least hleast hdelays
    obtain ⟨k, hk, hcompletes⟩ := exists_completesAt_of_delay_le hlimit hleast hdelays
    refine ⟨k, hk, continuesTimes_of_completesAt hcompletes, ?_⟩
    rintro α ε τ β r hsteers rfl driver n
    exact hcompletes.countP_le hsteers driver n
  · intro delay hdelay hlimit
    exact continuesTimes_of_completesAt (completesAt_spaced hlimit hdelay world)

/-- Delays that grow are cut off by the limit in the middle, and of equal delays three fit into
it. -/
theorem keepsBudget_fibonacci :
    let s : Schedule Unit := fibonacci (.ofMillis 10)
    (((s.maxCumulativeDelay (.ofMillis 45)).dryRun ()).decisions 9).1 =
        [.runAfter (.ofMillis 10), .runAfter (.ofMillis 10), .runAfter (.ofMillis 20), .complete] ∧
      ((spaced (.ofSeconds 2)).maxCumulativeDelay (.ofSeconds 7)).ContinuesTimes () 3 := by
  intro s
  have hcut := (keepsBudget s (.ofMillis 45) ()).1.cut 9 3 (by decide) (by decide)
  have hspaced := (keepsBudget s (.ofSeconds 7) ()).2 (.ofSeconds 2) (by decide) (by decide)
  have hfits : (Duration.ofSeconds 7).nanos / (Duration.ofSeconds 2).nanos = 3 := rfl
  exact ⟨hcut.trans (by decide), hfits ▸ hspaced⟩

end Schedule

end Cadence
