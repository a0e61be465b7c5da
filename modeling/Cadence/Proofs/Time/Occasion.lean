import Mathlib.Order.Bounds.Basic
import Cadence.Schedule.Anchored

/-!
# Waiting for an occasion

A schedule that waits for an occasion waits for the first instant of that occasion strictly after
the reading of its clock. The instants of an occasion are those at which the calendar shows its
second, minute, hour or day of the week, at the start of it. They are told apart here by the fields
of the calendar alone, and on a line of time without ends, so that the first of them always exists
and may be beyond the last instant.

The schedule finds that instant from the fields of its reading: it replaces the smaller ones, which
leads to an instant less than a period away, and goes on by a period unless that instant is later
than the reading. The seconds of an occasion are apart by its period, so the same instant can be
computed by one division, and there is one in the range of time exactly if the quotient is in it.

## Scope

Readings in a leap second are left out: they have no number of nanoseconds of their own.

## Main definitions

* `UniversalTime.secondOfMinute` and the definitions beside it — the fields of the calendar
* `Occasion.Falls` — when an occasion falls, by the fields of the calendar
* `Occasion.nextSecond` — the first second of an occasion after another, by a division

## Main results

* `Occasion.falls_iff` — the instants of an occasion are apart by multiples of its period
* `Occasion.isLeast_nextSecond` — the first instant of an occasion strictly after another
* `Occasion.next?_eq` — the search by the fields of the calendar finds it
* `Schedule.onOccasion_waits` — a schedule waits for that instant, or is complete
-/

namespace Cadence

/-! ### The calendar -/

namespace UniversalTime

/-- The nanoseconds into the second, at `t` nanoseconds from the start of 1970. -/
def nanoOfSecond (t : Int) : Int := t % 1000000000

/-- The seconds into the minute. -/
def secondOfMinute (t : Int) : Int := t / 1000000000 % 60

/-- The minutes into the hour. -/
def minuteOfHour (t : Int) : Int := t / 60000000000 % 60

/-- The hours into the day. -/
def hourOfDay (t : Int) : Int := t / 3600000000000 % 24

/-- The days into the week, which begins on a Monday. The first day of 1970 was a Thursday. -/
def dayOfWeek (t : Int) : Int := (t / 86400000000000 + Weekday.thursday.index) % 7

end UniversalTime

open UniversalTime in
/-- Whether an occasion falls on `t` nanoseconds from the start of 1970: the calendar shows its
number, and zero in all smaller units. -/
def Occasion.Falls (t : Int) : Occasion → Prop
  | secondOfMinute s => UniversalTime.secondOfMinute t = s.val ∧ nanoOfSecond t = 0
  | minuteOfHour m =>
    UniversalTime.minuteOfHour t = m.val ∧ UniversalTime.secondOfMinute t = 0 ∧ nanoOfSecond t = 0
  | hourOfDay h =>
    UniversalTime.hourOfDay t = h.val ∧ UniversalTime.minuteOfHour t = 0 ∧
      UniversalTime.secondOfMinute t = 0 ∧ nanoOfSecond t = 0
  | dayOfWeek d =>
    UniversalTime.dayOfWeek t = d.index ∧ UniversalTime.hourOfDay t = 0 ∧
      UniversalTime.minuteOfHour t = 0 ∧ UniversalTime.secondOfMinute t = 0 ∧ nanoOfSecond t = 0

theorem Weekday.index_lt (d : Weekday) : d.index < 7 := by
  cases d <;> decide

namespace Occasion

/-- A second at which the occasion falls. The start of 1970 was a Thursday. -/
def anchor : Occasion → Int
  | secondOfMinute s => s.val
  | minuteOfHour m => m.val * 60
  | hourOfDay h => h.val * 3600
  | dayOfWeek d => ((d.index : Int) - Weekday.thursday.index) * 86400

/-- The first second of the occasion that begins after the start of second `s`. -/
def nextSecond (o : Occasion) (s : Int) : Int := s + o.period - (s - o.anchor) % o.period

theorem period_pos (o : Occasion) : 0 < o.period := by
  cases o <;> simp only [period] <;> decide

/-- No period is longer than a week. -/
theorem period_le (o : Occasion) : o.period ≤ 604800 := by
  cases o <;> simp only [period] <;> decide

/-- **The instants of an occasion** are at the start of a second, and apart by multiples of its
period. -/
theorem falls_iff (o : Occasion) (t : Int) :
    o.Falls t ↔ t % 1000000000 = 0 ∧ (t / 1000000000 - o.anchor) % o.period = 0 := by
  cases o with
  | secondOfMinute s =>
    have hs := s.isLt
    simp only [Falls, anchor, period, UniversalTime.secondOfMinute, UniversalTime.nanoOfSecond]
    omega
  | minuteOfHour m =>
    have hm := m.isLt
    simp only [Falls, anchor, period, UniversalTime.minuteOfHour, UniversalTime.secondOfMinute,
      UniversalTime.nanoOfSecond]
    omega
  | hourOfDay h =>
    have hh := h.isLt
    simp only [Falls, anchor, period, UniversalTime.hourOfDay, UniversalTime.minuteOfHour,
      UniversalTime.secondOfMinute, UniversalTime.nanoOfSecond]
    omega
  | dayOfWeek d =>
    have hd := d.index_lt
    simp only [Falls, anchor, period, UniversalTime.dayOfWeek, UniversalTime.hourOfDay,
      UniversalTime.minuteOfHour, UniversalTime.secondOfMinute, UniversalTime.nanoOfSecond]
    have hthursday : Weekday.thursday.index = 3 := rfl
    omega

/-! ### The next second -/

variable (o : Occasion) (s : Int)

theorem lt_nextSecond : s < o.nextSecond s := by
  have hrest := Int.emod_lt_of_pos (s - o.anchor) o.period_pos
  rw [nextSecond]
  omega

/-- The next second of an occasion is at most a period away. -/
theorem nextSecond_le : o.nextSecond s ≤ s + o.period := by
  have hrest := Int.emod_nonneg (s - o.anchor) (Int.ne_of_gt o.period_pos)
  rw [nextSecond]
  omega

/-- It is the start of the period after the one that `s` lies in. -/
theorem nextSecond_sub_anchor :
    o.nextSecond s - o.anchor = o.period * ((s - o.anchor) / o.period + 1) := by
  have hsplit := Int.mul_ediv_add_emod (s - o.anchor) o.period
  rw [nextSecond, Int.mul_add, Int.mul_one]
  omega

/-- No other second of the occasion comes between. -/
theorem nextSecond_le_of_lt {u : Int} (hlt : s < u) (hu : (u - o.anchor) % o.period = 0) :
    o.nextSecond s ≤ u := by
  obtain ⟨k, hk⟩ := Int.dvd_of_emod_eq_zero hu
  have hnext := o.nextSecond_sub_anchor s
  have hsplit := Int.mul_ediv_add_emod (s - o.anchor) o.period
  have hrest := Int.emod_nonneg (s - o.anchor) (Int.ne_of_gt o.period_pos)
  have hlater : o.period * ((s - o.anchor) / o.period) < o.period * k := by omega
  have hperiods : (s - o.anchor) / o.period + 1 ≤ k :=
    Int.add_one_le_of_lt (Int.lt_of_mul_lt_mul_left hlater (Int.le_of_lt o.period_pos))
  have hle := Int.mul_le_mul_of_nonneg_left hperiods (Int.le_of_lt o.period_pos)
  omega

/-- **The first instant of an occasion strictly after another** is the start of its next second. -/
theorem isLeast_nextSecond {now : Instant} (h : ¬ now.IsLeap) :
    IsLeast {t | now.toNanos < t ∧ o.Falls t} (o.nextSecond now.second * 1000000000) := by
  have hnano : now.nano < 1000000000 := Nat.lt_of_not_le h
  have hlt := o.lt_nextSecond now.second
  constructor
  · refine ⟨?_, (o.falls_iff _).mpr ⟨?_, ?_⟩⟩
    · rw [Instant.toNanos]
      omega
    · exact Int.mul_emod_left _ _
    · rw [Int.mul_ediv_cancel _ (by decide), o.nextSecond_sub_anchor]
      exact Int.mul_emod_right _ _
  · rintro t ⟨hafter, hfalls⟩
    obtain ⟨hstart, hrecurs⟩ := (o.falls_iff t).mp hfalls
    rw [Instant.toNanos] at hafter
    have hnext := o.nextSecond_le_of_lt now.second (by omega) hrecurs
    omega

/-- A second of the occasion that is at most a period away is the next one. -/
theorem eq_nextSecond {u : Int} (hlt : s < u) (hle : u ≤ s + o.period)
    (hu : (u - o.anchor) % o.period = 0) : u = o.nextSecond s := by
  obtain ⟨k, hk⟩ := Int.dvd_of_emod_eq_zero hu
  have hnext := o.nextSecond_sub_anchor s
  have hfirst := o.nextSecond_le_of_lt s hlt hu
  have hlater := o.lt_nextSecond s
  have hpos := o.period_pos
  -- two multiples of the period that are apart by less than it are the same
  have hk' : k = (s - o.anchor) / o.period + 1 := by
    refine Int.le_antisymm (Int.le_of_lt_add_one ?_) ?_
    · refine Int.lt_of_mul_lt_mul_left (a := o.period) ?_ (Int.le_of_lt hpos)
      rw [Int.mul_add, Int.mul_one, ← hnext, ← hk]
      omega
    · refine Int.le_of_mul_le_mul_left (a := o.period) ?_ hpos
      omega
  rw [hk', ← hnext] at hk
  omega

/-! ### The search by the fields of the calendar -/

variable {o s} {now : Instant}

/-- The fields of an instant lead to a second of the occasion less than a period away from it, which
is not before time begins. -/
theorem exists_candidate? (o : Occasion) (now : Instant) :
    ∃ u, o.candidate? now = Instant.ofSecond? u ∧ (u - o.anchor) % o.period = 0 ∧
      now.second < u + o.period ∧ u < now.second + o.period ∧ Instant.first.second ≤ u := by
  have hfirst := now.first_le
  have hbegin : Instant.first.second = -8334601228800 := rfl
  cases o with
  | secondOfMinute s =>
    have hs := s.isLt
    have hfields : now.hour < 24 ∧ now.minute < 60 ∧ s.val < 60 := by
      simp only [Instant.hour, Instant.minute, Instant.secondOfDay]
      omega
    refine ⟨now.day * 86400 + (now.hour * 3600 + now.minute * 60 + s.val : Nat), ?_, ?_⟩
    · rw [candidate?, TimeOfDay.ofFields?, dif_pos hfields]
      exact (Instant.ofSecond?_second rfl).symm
    · simp only [anchor, period, Instant.day, Instant.hour, Instant.minute, Instant.secondOfDay]
      omega
  | minuteOfHour m =>
    have hm := m.isLt
    have hfields : now.hour < 24 ∧ m.val < 60 ∧ 0 < 60 := by
      simp only [Instant.hour, Instant.secondOfDay]
      omega
    refine ⟨now.day * 86400 + (now.hour * 3600 + m.val * 60 + 0 : Nat), ?_, ?_⟩
    · rw [candidate?, TimeOfDay.ofFields?, dif_pos hfields]
      exact (Instant.ofSecond?_second rfl).symm
    · simp only [anchor, period, Instant.day, Instant.hour, Instant.secondOfDay]
      omega
  | hourOfDay h =>
    have hh := h.isLt
    refine ⟨now.day * 86400 + (h.val * 3600 + 0 * 60 + 0 : Nat), ?_, ?_⟩
    · rw [candidate?, TimeOfDay.ofFields?, dif_pos ⟨hh, by decide, by decide⟩]
      exact (Instant.ofSecond?_second rfl).symm
    · simp only [anchor, period, Instant.day]
      omega
  | dayOfWeek d =>
    have hd := d.index_lt
    have hmidnight : ¬ (now.atTime .midnight).IsLeap := Instant.not_isLeap_of_nano rfl
    have hthursday : Weekday.thursday.index = 3 := rfl
    refine ⟨(now.day + daysAhead now.daysSinceMonday d.index) * 86400, ?_, ?_⟩
    · rw [candidate?, Instant.add?_of_not_isLeap hmidnight, Instant.ofSecond?]
      congr 1
      simp only [Instant.toNanos, Instant.atTime, TimeOfDay.midnight]
      omega
    · simp only [anchor, period, daysAhead, Instant.daysSinceMonday, Instant.day]
      omega

/-- An instant at the start of a second, or else the start of the second a period later. -/
theorem strictlyAfter?_eq {candidate : Instant} (h : candidate.nano = 0) (period : Int) :
    strictlyAfter? now candidate (period * 1000000000) =
      Instant.ofSecond? (if now.second < candidate.second then candidate.second
        else candidate.second + period) := by
  have hleap := Instant.not_isLeap_of_nano h
  have hlater : now < candidate ↔ now.second < candidate.second := by
    rw [Instant.lt_def]
    omega
  rw [strictlyAfter?]
  split <;> rename_i hcandidate
  · rw [if_pos (hlater.mp hcandidate), Instant.ofSecond?_second h]
  · rw [if_neg (mt hlater.mpr hcandidate), Instant.add?_of_not_isLeap hleap, Instant.ofSecond?,
      Instant.toNanos, h, Int.natCast_zero, Int.add_zero, Int.add_mul]

/-- **The search by the fields of the calendar** finds the start of the next second of the occasion,
if that is in the range of time. -/
theorem next?_eq (o : Occasion) (now : Instant) :
    o.next? now = Instant.ofSecond? (o.nextSecond now.second) := by
  obtain ⟨u, hu, hrecurs, hlt, hle, hfirst⟩ := o.exists_candidate? now
  have hlast := now.le_last
  have hbegin : Instant.first.second = -8334601228800 := rfl
  rw [next?, hu]
  cases hcandidate : Instant.ofSecond? u with
  | none =>
    -- the occasion is beyond the range of time already by its fields, and so later than `now`
    have hbeyond : now.second < u := by
      by_contra hle
      rw [Instant.ofSecond?, Instant.ofNanos?, dif_pos (by omega)] at hcandidate
      exact absurd hcandidate (Option.some_ne_none _)
    rw [← o.eq_nextSecond now.second hbeyond (Int.le_of_lt hle) hrecurs, hcandidate]
    rfl
  | some candidate =>
    obtain ⟨hsecond, hnano⟩ := Instant.second_of_ofSecond? hcandidate
    rw [Option.bind_some, strictlyAfter?_eq hnano, hsecond]
    split <;> rename_i hlater
    · rw [← o.eq_nextSecond now.second hlater (Int.le_of_lt hle) hrecurs]
    · have hperiod : (u + o.period - o.anchor) % o.period = 0 := by
        rw [show u + o.period - o.anchor = u - o.anchor + o.period by omega, Int.add_emod_right,
          hrecurs]
      rw [← o.eq_nextSecond now.second hlt (by omega) hperiod]

/-- As long as it is in the range of time, the next instant is the start of the next second. -/
theorem exists_next? {o : Occasion} {now : Instant}
    (h : o.nextSecond now.second * 1000000000 ≤ Instant.last.toNanos) :
    ∃ time, o.next? now = some time ∧ time.toNanos = o.nextSecond now.second * 1000000000 ∧
      ¬ time.IsLeap := by
  have hfirst := now.first_le
  have hlt := o.lt_nextSecond now.second
  have hlast : Instant.last.toNanos = 8210266876799999999999 := rfl
  have hsome : ∃ time, Instant.ofSecond? (o.nextSecond now.second) = some time :=
    ⟨_, dif_pos (by omega)⟩
  obtain ⟨time, htime⟩ := hsome
  exact ⟨time, (next?_eq o now).trans htime, Instant.toNanos_of_ofNanos? htime⟩

theorem next?_eq_none {o : Occasion} {now : Instant}
    (h : Instant.last.toNanos < o.nextSecond now.second * 1000000000) : o.next? now = none := by
  have hlast : Instant.last.toNanos = 8210266876799999999999 := rfl
  rw [next?_eq]
  exact dif_neg (by omega)

end Occasion

/-- Off leap seconds, the time from one instant to a later one is the difference of their
nanoseconds. -/
theorem Instant.nanos_elapsed {start finish : Instant} (hstart : ¬ start.IsLeap)
    (hfinish : ¬ finish.IsLeap) (hle : start.toNanos ≤ finish.toNanos)
    (hfits : finish.toNanos - start.toNanos ≤ Duration.maxNanos) :
    ((start.elapsed finish).nanos : Int) = finish.toNanos - start.toNanos := by
  have hcorrection : leapCorrection start finish = 0 := by
    rw [leapCorrection, if_neg fun h => hstart h.2, if_neg fun h => hfinish h.2]
  rw [elapsed, hcorrection, Duration.nanos_ofNanos]
  omega

namespace Schedule

variable {σ : Type}

theorem onOccasion_of_some {o : Occasion} {now : σ → Instant × σ} {world : σ} {time : Instant}
    (h : o.next? (now world).1 = some time) (state : Unit) (context : Context) :
    (onOccasion o now).step state context world =
      ⟨.runAfter ((now world).1.elapsed time), (), (now world).2⟩ := by
  simp only [onOccasion, h]

theorem onOccasion_of_none {o : Occasion} {now : σ → Instant × σ} {world : σ}
    (h : o.next? (now world).1 = none) (state : Unit) (context : Context) :
    (onOccasion o now).step state context world = ⟨.complete, (), (now world).2⟩ := by
  simp only [onOccasion, h]

/-- **A schedule that waits for an occasion** reads its clock and waits for the first instant of the
occasion strictly after that, which is at most a period away. It is complete if that instant is
beyond the last one. -/
theorem onOccasion_waits (o : Occasion) (now : σ → Instant × σ) (state : Unit) (context : Context)
    (world : σ) (h : ¬ (now world).1.IsLeap) :
    let made := (onOccasion o now).step state context world
    ∃ next, IsLeast {t | (now world).1.toNanos < t ∧ o.Falls t} next ∧
      (next ≤ Instant.last.toNanos → ∃ delay, made.decision = .runAfter delay ∧
        (delay.nanos : Int) = next - (now world).1.toNanos ∧ 0 < delay.nanos ∧
          (delay.nanos : Int) ≤ o.period * 1000000000) ∧
      (Instant.last.toNanos < next → made.decision = .complete) := by
  intro made
  have hleast := o.isLeast_nextSecond h
  refine ⟨_, hleast, fun hrange => ?_, fun hbeyond => ?_⟩
  · obtain ⟨time, htime, hnanos, hleap⟩ := Occasion.exists_next? hrange
    have hafter := hleast.1.1
    have hle := o.nextSecond_le (now world).1.second
    have hweek := o.period_le
    have hreading : (now world).1.toNanos =
        (now world).1.second * 1000000000 + (now world).1.nano := rfl
    have hdelay := Instant.nanos_elapsed h hleap (by omega) (by rw [Duration.maxNanos]; omega)
    rw [hnanos] at hdelay
    have hmade : made.decision = .runAfter ((now world).1.elapsed time) :=
      congrArg Step.decision (onOccasion_of_some htime state context)
    exact ⟨_, hmade, hdelay, by omega, by omega⟩
  · have hnone := Occasion.next?_eq_none hbeyond
    exact congrArg Step.decision (onOccasion_of_none hnone state context)

/-- From the start of 1970, a Thursday, it is four days to the next Monday. After the last instant
there is no midnight. -/
theorem onOccasion_waits_epoch :
    let read : Instant → Instant × Instant := fun now => (now, now)
    ¬ Instant.epoch.IsLeap ∧ ¬ Instant.last.IsLeap ∧
      (∃ delay, ((onOccasion (.dayOfWeek .monday) read).step () .initial .epoch).decision =
        .runAfter delay ∧ delay.nanos = 345600000000000) ∧
      ((onOccasion (.hourOfDay 0) read).step () .initial .last).decision = .complete := by
  intro read
  have hepoch : ¬ Instant.epoch.IsLeap := by decide
  have hlast : ¬ Instant.last.IsLeap := by decide
  obtain ⟨monday, hmonday, hwaits, -⟩ :=
    onOccasion_waits (.dayOfWeek .monday) read () .initial .epoch hepoch
  obtain ⟨midnight, hmidnight, -, hcomplete⟩ :=
    onOccasion_waits (.hourOfDay 0) read () .initial .last hlast
  have hfour : monday = 345600000000000 :=
    hmonday.unique ((Occasion.dayOfWeek .monday).isLeast_nextSecond hepoch)
  have hbeyond : midnight = 8210266876800000000000 :=
    hmidnight.unique ((Occasion.hourOfDay 0).isLeast_nextSecond hlast)
  obtain ⟨delay, hdelay, hnanos, -⟩ := hwaits (by rw [hfour]; decide)
  refine ⟨hepoch, hlast, ⟨delay, hdelay, ?_⟩, hcomplete (by rw [hbeyond]; decide)⟩
  have hstart : (read Instant.epoch).1.toNanos = 0 := rfl
  omega

end Schedule

end Cadence
