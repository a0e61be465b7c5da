import Cadence.Context

/-!
# Contexts of a part of a run

A part of a run that begins at an origin sees what was counted since then, as long as the counts
have not reached their largest value. What it sees does not depend on how often the counts were
taken off: a part of a part sees the same as a part of the whole that begins at the same point. This
holds also when the counts are full, for both then miss the same.

## Main definitions

* `Context.Before` — a context comes before another one in a run
* `Context.Arises` — the contexts there can be in runs and in parts of them
* `Context.CountAlike` — two of these count the same number of decisions

## Main results

* `Context.Before.since_since` — parts of parts
* `Context.since_next` — with room left, the context since an origin goes on like that of a run
* `Context.CountAlike.since` — what counts alike counts alike since origins that do
-/

namespace Cadence.Context

variable {origin middle c : Context}

/-- A context comes before another one in a run: what was counted has only grown. -/
structure Before (origin c : Context) : Prop where
  /-- No fewer decisions were counted. -/
  iteration : origin.iteration ≤ c.iteration
  /-- No less delay was added up. -/
  elapsed : origin.elapsed.nanos ≤ c.elapsed.nanos

theorem before_refl (c : Context) : c.Before c := ⟨Nat.le_refl _, Nat.le_refl _⟩

theorem before_next (c : Context) (d : Decision) : c.Before (c.next d) where
  iteration := Nat.le_min.mpr ⟨Nat.le_succ _, c.iteration_le⟩
  elapsed := Nat.le_min.mpr ⟨Nat.le_add_right _ _, c.elapsed.nanos_le⟩

theorem Before.trans (h : origin.Before middle) (h' : middle.Before c) : origin.Before c :=
  ⟨Nat.le_trans h.iteration h'.iteration, Nat.le_trans h.elapsed h'.elapsed⟩

theorem Before.next (h : origin.Before c) (d : Decision) : origin.Before (c.next d) :=
  h.trans (c.before_next d)

/-! ### Since an origin -/

/-- A part that begins now sees a fresh run. -/
theorem since_self (c : Context) : c.since c = initial :=
  Context.ext (Nat.sub_self _) (if_neg (Nat.lt_irrefl _)) (Duration.ext (Nat.sub_self _))

/-- A part that began with the run sees all of it. -/
theorem since_initial (h : 0 < c.iteration) : c.since initial = c :=
  Context.ext (Nat.sub_zero _) (if_pos h) (Duration.ext (Nat.sub_zero _))

/-- **Parts of parts.** What a part of a part sees is what a part of the whole sees that began at
the same point. -/
theorem Before.since_since (h : origin.Before middle) (h' : middle.Before c) :
    (c.since origin).since (middle.since origin) = c.since middle := by
  have hiteration := h.iteration
  have hiteration' := h'.iteration
  have helapsed := h.elapsed
  have helapsed' := h'.elapsed
  refine Context.ext ?_ ?_ (Duration.ext ?_)
  · show c.iteration - origin.iteration - (middle.iteration - origin.iteration) = _
    simp only [since]
    omega
  · show (if middle.iteration - origin.iteration < c.iteration - origin.iteration then
      if origin.iteration < c.iteration then c.last else none else none) = _
    by_cases hlt : middle.iteration < c.iteration
    · rw [if_pos (by omega), if_pos (by omega)]
      exact (if_pos hlt).symm
    · rw [if_neg (by omega)]
      exact (if_neg hlt).symm
  · simp only [since, Duration.nanos_sub]
    omega

/-- With room for one more decision and its delay, the context since an origin goes on like that of
a run. -/
theorem since_next {d : Decision} (h : origin.Before c) (hroom : c.iteration < maxCount)
    (hdelay : c.elapsed.nanos + d.delay.nanos ≤ Duration.maxNanos) :
    (c.next d).since origin = (c.since origin).next d := by
  have hiteration := h.iteration
  have helapsed := h.elapsed
  have hcount : (c.next d).iteration = c.iteration + 1 := countUp_of_lt hroom
  refine Context.ext ?_ ?_ (Duration.ext ?_)
  · show (c.next d).iteration - origin.iteration = countUp (c.iteration - origin.iteration)
    rw [hcount, countUp_of_lt (by omega)]
    omega
  · show (if origin.iteration < (c.next d).iteration then some d else none) = some d
    rw [hcount]
    exact if_pos (Nat.lt_succ_of_le hiteration)
  · simp only [since, next, Duration.nanos_sub, Duration.nanos_add]
    omega

/-! ### Contexts that arise -/

/-- The contexts there can be: that of a fresh run, that after one more decision, and that since an
origin. -/
inductive Arises : Context → Prop where
  /-- A fresh run has no decision. -/
  | initial : Arises initial
  /-- One more decision was made. -/
  | next {c : Context} (h : Arises c) (d : Decision) : Arises (c.next d)
  /-- A part of a run sees what was counted since its origin. -/
  | since {c : Context} (h : Arises c) (origin : Context) : Arises (c.since origin)

/-- There is a last decision as soon as a decision was counted, and not before. -/
theorem Arises.last_eq_none_iff (h : c.Arises) : c.last = none ↔ c.iteration = 0 := by
  induction h with
  | initial => exact iff_of_true rfl rfl
  | @next c h d ih =>
    have hcount : (c.next d).iteration ≠ 0 := by
      show min (c.iteration + 1) maxCount ≠ 0
      exact Nat.ne_of_gt (Nat.lt_min.mpr ⟨Nat.succ_pos _, by decide⟩)
    exact iff_of_false (Option.some_ne_none d) hcount
  | @since c h origin ih =>
    show (if origin.iteration < c.iteration then c.last else none) = none ↔
      c.iteration - origin.iteration = 0
    by_cases hlt : origin.iteration < c.iteration
    · rw [if_pos hlt, ih]
      omega
    · rw [if_neg hlt]
      exact iff_of_true rfl (by omega)

/-- So whether a run has started is told by the number of decisions. -/
theorem Arises.hasNotStarted_iff (h : c.Arises) : c.hasNotStarted = true ↔ c.iteration = 0 := by
  rw [hasNotStarted, Bool.and_eq_true, Option.isNone_iff_eq_none, h.last_eq_none_iff, beq_iff_eq,
    and_self]

/-- Two contexts that there can be count the same number of decisions. Their last decisions and
their delays may be any. -/
structure CountAlike (c c' : Context) : Prop where
  /-- The one arises. -/
  left : c.Arises
  /-- The other arises. -/
  right : c'.Arises
  /-- They count the same number. -/
  iteration : c.iteration = c'.iteration

theorem CountAlike.hasNotStarted_eq {c' : Context} (h : c.CountAlike c') :
    c.hasNotStarted = c'.hasNotStarted := by
  rw [Bool.eq_iff_iff, h.left.hasNotStarted_iff, h.right.hasNotStarted_iff, h.iteration]

/-- Since origins at which as many decisions were counted, they count the same number again. -/
theorem CountAlike.since {c' origin' : Context} (h : c.CountAlike c')
    (horigin : origin.iteration = origin'.iteration) :
    (c.since origin).CountAlike (c'.since origin') where
  left := h.left.since origin
  right := h.right.since origin'
  iteration := by
    show c.iteration - origin.iteration = c'.iteration - origin'.iteration
    rw [h.iteration, horigin]

end Cadence.Context
