import Cadence.Time.Instant

/-!
# Days and times of day

In universal time an instant lies in a day, counted from the first of 1970, and a clock shows its
hour and its minute. The days of the week recur every seven days; the first day of 1970 was a
Thursday. In a leap second the fields are those of the second before it.

## Main definitions

* `Weekday` — the days of the week
* `Instant.day`, `hour`, `minute`, `daysSinceMonday` — the fields of an instant
* `TimeOfDay` — a time of day, in whole seconds
* `TimeOfDay.ofFields?` — the time of day with the given fields, if they are in range
* `Instant.atTime` — another time of the same day

## Implementation notes

The range of time begins with a midnight and ends with the second before one, so every time of every
day in it is an instant.
-/

namespace Cadence

/-- The days of the week. -/
inductive Weekday where
  | monday
  | tuesday
  | wednesday
  | thursday
  | friday
  | saturday
  | sunday
deriving DecidableEq

/-- The number of days since Monday. -/
def Weekday.index : Weekday → Nat
  | monday => 0
  | tuesday => 1
  | wednesday => 2
  | thursday => 3
  | friday => 4
  | saturday => 5
  | sunday => 6

/-! ### The fields of an instant -/

namespace Instant

/-- The day in which an instant lies, negative before 1970. -/
def day (t : Instant) : Int := t.second / 86400

/-- The hour of the day. -/
def hour (t : Instant) : Nat := (t.secondOfDay / 3600).toNat

/-- The minute of the hour. -/
def minute (t : Instant) : Nat := (t.secondOfDay / 60 % 60).toNat

/-- The number of days since Monday. -/
def daysSinceMonday (t : Instant) : Nat := ((t.day + Weekday.thursday.index) % 7).toNat

end Instant

/-! ### Times of day -/

/-- A time of day, by the whole seconds since midnight. -/
structure TimeOfDay where
  /-- The seconds since midnight. -/
  second : Nat
  /-- A day has 86400 seconds. -/
  second_lt : second < 86400
deriving DecidableEq

namespace TimeOfDay

/-- The start of a day. -/
def midnight : TimeOfDay := ⟨0, by decide⟩

/-- The time of day at which a clock shows the given hour, minute and second, if it ever does. -/
def ofFields? (hour minute second : Nat) : Option TimeOfDay :=
  if h : hour < 24 ∧ minute < 60 ∧ second < 60 then
    some ⟨hour * 3600 + minute * 60 + second, by omega⟩
  else none

end TimeOfDay

/-- The instant at another time of the same day. -/
def Instant.atTime (t : Instant) (time : TimeOfDay) : Instant where
  second := t.day * 86400 + time.second
  nano := 0
  first_le := by
    have hfirst := t.first_le
    rw [day]
    omega
  le_last := by
    have hlast := t.le_last
    have htime := time.second_lt
    rw [day]
    omega
  nano_lt := epoch.nano_lt

end Cadence
