import Cadence.Duration.Basic

/-!
# Instants

An instant is a point in universal time, given by the second it lies in, counted from the start of
the year 1970, and the nanoseconds into that second. The range reaches from the first second of the
year −262143 to the last nanosecond of the year 262142.

A second may be followed by a leap second, which has no number of its own: its instants are those
of the second before it with a thousand million nanoseconds more.

## Main definitions

* `Instant` — the type, ordered by time
* `Instant.toNanos`, `Instant.ofNanos?` — an instant as nanoseconds since 1970
* `Instant.add?`, `Instant.after` — the instant a time away, if there is one, or else the last one
* `Instant.elapsed` — the time from one instant to another

## Main results

* `Instant.toNanos_of_ofNanos?`, `Instant.ofNanos?_toNanos` — the two representations agree
* `Instant.lt_iff_toNanos_lt` — off leap seconds, the order is the order of the nanoseconds
-/

namespace Cadence

/-- A point in time, by its second since the start of 1970 and the nanoseconds into it. -/
@[ext]
structure Instant where
  /-- The second, negative before 1970. -/
  second : Int
  /-- The nanoseconds into the second. From a thousand million on they lie in a leap second. -/
  nano : Nat
  /-- Time begins with the year −262143. -/
  first_le : -8334601228800 ≤ second
  /-- Time ends with the year 262142. -/
  le_last : second ≤ 8210266876799
  /-- A second, with the leap second that may follow it, has less than two thousand million. -/
  nano_lt : nano < 2000000000
deriving DecidableEq

namespace Instant

/-- The start of 1970. -/
def epoch : Instant := ⟨0, 0, by decide, by decide, by decide⟩

/-- The first instant. -/
def first : Instant := ⟨-8334601228800, 0, by decide, by decide, by decide⟩

/-- The last instant. -/
def last : Instant := ⟨8210266876799, 999999999, by decide, by decide, by decide⟩

instance : Inhabited Instant := ⟨epoch⟩

/-- The instant with the given parts, if there is one. -/
def ofParts? (second : Int) (nano : Nat) : Option Instant :=
  if h : (-8334601228800 ≤ second ∧ second ≤ 8210266876799) ∧ nano < 2000000000 then
    some ⟨second, nano, h.1.1, h.1.2, h.2⟩
  else none

/-- Whether an instant lies in a leap second. -/
def IsLeap (t : Instant) : Prop := Duration.nanosPerSecond ≤ t.nano

instance (t : Instant) : Decidable t.IsLeap := inferInstanceAs (Decidable (_ ≤ _))

theorem not_isLeap_of_nano {t : Instant} (h : t.nano = 0) : ¬ t.IsLeap := by
  rw [IsLeap, h]
  decide

/-! ### Instants as numbers of nanoseconds -/

/-- The nanoseconds from the start of 1970 to an instant. -/
def toNanos (t : Instant) : Int := t.second * 1000000000 + t.nano

/-- The instant that is `n` nanoseconds from the start of 1970, if it is in the range of time. -/
def ofNanos? (n : Int) : Option Instant :=
  if h : -8334601228800 ≤ n / 1000000000 ∧ n / 1000000000 ≤ 8210266876799 then
    some ⟨n / 1000000000, (n % 1000000000).toNat, h.1, h.2, by omega⟩
  else none

/-- The instant at the start of a second, if it is in the range of time. -/
def ofSecond? (s : Int) : Option Instant := ofNanos? (s * 1000000000)

theorem toNanos_of_ofNanos? {n : Int} {t : Instant} (h : ofNanos? n = some t) :
    t.toNanos = n ∧ ¬ t.IsLeap := by
  unfold ofNanos? at h
  split at h
  · obtain rfl := Option.some.inj h
    simp only [toNanos, IsLeap, Duration.nanosPerSecond]
    omega
  · simp at h

theorem ofNanos?_toNanos {t : Instant} (h : ¬ t.IsLeap) : ofNanos? t.toNanos = some t := by
  have hf := t.first_le
  have hl := t.le_last
  simp only [IsLeap, Duration.nanosPerSecond] at h
  have hdiv : t.toNanos / 1000000000 = t.second := by unfold toNanos; omega
  have hmod : (t.toNanos % 1000000000).toNat = t.nano := by unfold toNanos; omega
  unfold ofNanos?
  rw [dif_pos (by omega)]
  exact congrArg some (Instant.ext hdiv hmod)

/-- The start of a second is the instant that begins it. -/
theorem ofSecond?_second {t : Instant} (h : t.nano = 0) : ofSecond? t.second = some t := by
  have hnanos : t.second * 1000000000 = t.toNanos := by
    rw [toNanos, h, Int.natCast_zero, Int.add_zero]
  rw [ofSecond?, hnanos, ofNanos?_toNanos (not_isLeap_of_nano h)]

theorem second_of_ofSecond? {s : Int} {t : Instant} (h : ofSecond? s = some t) :
    t.second = s ∧ t.nano = 0 := by
  obtain ⟨hnanos, hleap⟩ := toNanos_of_ofNanos? h
  simp only [toNanos, IsLeap, Duration.nanosPerSecond] at hnanos hleap
  omega

/-! ### Order -/

instance : LT Instant :=
  ⟨fun a b => a.second < b.second ∨ a.second = b.second ∧ a.nano < b.nano⟩

instance (a b : Instant) : Decidable (a < b) := inferInstanceAs (Decidable (_ ∨ _))

theorem lt_def (a b : Instant) :
    a < b ↔ a.second < b.second ∨ a.second = b.second ∧ a.nano < b.nano := Iff.rfl

theorem lt_iff_toNanos_lt {a b : Instant} (ha : ¬ a.IsLeap) (hb : ¬ b.IsLeap) :
    a < b ↔ a.toNanos < b.toNanos := by
  simp only [IsLeap, Duration.nanosPerSecond] at ha hb
  rw [lt_def, toNanos, toNanos]
  omega

/-! ### Moving and measuring -/

/-- The instant `delta` nanoseconds later, or earlier if `delta` is negative, if it is in the range
of time. A move that begins in a leap second may also end in it. If it ends after it, the leap
second is left out of the count: the number of nanoseconds of the second that follows begins where
that of the leap second began. -/
def add? (t : Instant) (delta : Int) : Option Instant :=
  if t.IsLeap ∧ 2000000000 ≤ t.nano + delta then ofNanos? (t.toNanos - 1000000000 + delta)
  else if t.IsLeap ∧ 1000000000 ≤ t.nano + delta then ofParts? t.second (t.nano + delta).toNat
  else ofNanos? (t.toNanos + delta)

/-- Off leap seconds, a move is an addition of nanoseconds. -/
theorem add?_of_not_isLeap {t : Instant} (h : ¬ t.IsLeap) (delta : Int) :
    t.add? delta = ofNanos? (t.toNanos + delta) := by
  rw [add?, if_neg fun hleap => h hleap.1, if_neg fun hleap => h hleap.1]

/-- The instant a duration later, or the last instant if that is beyond it. -/
def after (t : Instant) (d : Duration) : Instant := (t.add? d.nanos).getD last

/-- The second of the day in which an instant lies. -/
def secondOfDay (t : Instant) : Int := t.second % 86400

/-- The nanoseconds that a leap second adds to or takes from the difference of two instants. A leap
second that was passed counts, by the time of day, as one second more. -/
def leapCorrection (start finish : Instant) : Int :=
  if start.secondOfDay < finish.secondOfDay ∧ start.IsLeap then 1000000000
  else if finish.secondOfDay < start.secondOfDay ∧ finish.IsLeap then -1000000000
  else 0

/-- The time from one instant to another, and no time at all if the second is the earlier one. -/
def elapsed (start finish : Instant) : Duration :=
  Duration.ofNanos (finish.toNanos - start.toNanos + leapCorrection start finish).toNat

end Instant

end Cadence
