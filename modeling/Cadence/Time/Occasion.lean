import Cadence.Record.Basic
import Cadence.Time.Calendar

/-!
# Recurring occasions in the calendar

An occasion is a point that recurs in universal time: a second of every minute, the start of a
minute of every hour, the start of an hour of every day, or midnight at the start of a weekday.

## Main definitions

* `Occasion` — the kinds of occasion
* `Occasion.ofSecond?`, `ofMinute?`, `ofHour?` — an occasion by its number, if that is in range
* `CalendarError` — a number out of range, with its `message` and its `record`
* `Occasion.candidate?` — the instant of an occasion that the fields of a given one lead to
* `Occasion.next?` — the first instant of an occasion strictly after a given one
-/

namespace Cadence

/-! ### Numbers out of range -/

/-- The unit of a number in the calendar. -/
inductive CalendarUnit where
  | second
  | minute
  | hour
deriving DecidableEq

/-- The name of a unit. -/
def CalendarUnit.text : CalendarUnit → String
  | second => "second"
  | minute => "minute"
  | hour => "hour"

/-- The first number that is out of range. -/
def CalendarUnit.limit : CalendarUnit → Nat
  | second => 60
  | minute => 60
  | hour => 24

/-- A number that its unit does not have. -/
structure CalendarError where
  /-- The unit. -/
  unit : CalendarUnit
  /-- The number. -/
  value : Nat
deriving DecidableEq

/-- What the error says. -/
def CalendarError.message (e : CalendarError) : String :=
  e.unit.text ++ " must be less than " ++ toString e.unit.limit ++ ", got " ++ toString e.value

/-- The error as a record. -/
def CalendarError.record (e : CalendarError) : String :=
  Record.fields "CalendarError" [
    ("unit", Record.quote e.unit.text),
    ("value", toString e.value),
    ("limit", toString e.unit.limit)]

/-- A number of a unit, checked against the range of the unit. -/
def CalendarUnit.check (u : CalendarUnit) (value : Nat) : Except CalendarError (Fin u.limit) :=
  if h : value < u.limit then .ok ⟨value, h⟩ else .error ⟨u, value⟩

/-! ### Occasions -/

/-- A recurring point in universal time. -/
inductive Occasion where
  /-- A second of every minute. -/
  | secondOfMinute (second : Fin 60)
  /-- The start of a minute of every hour. -/
  | minuteOfHour (minute : Fin 60)
  /-- The start of an hour of every day. -/
  | hourOfDay (hour : Fin 24)
  /-- Midnight at the start of a day of every week. -/
  | dayOfWeek (day : Weekday)
deriving DecidableEq

namespace Occasion

/-- The occasion of a second of every minute. -/
def ofSecond? (value : Nat) : Except CalendarError Occasion :=
  (CalendarUnit.second.check value).map secondOfMinute

/-- The occasion of the start of a minute of every hour. -/
def ofMinute? (value : Nat) : Except CalendarError Occasion :=
  (CalendarUnit.minute.check value).map minuteOfHour

/-- The occasion of the start of an hour of every day. -/
def ofHour? (value : Nat) : Except CalendarError Occasion :=
  (CalendarUnit.hour.check value).map hourOfDay

/-- The number of seconds after which an occasion recurs. -/
def period : Occasion → Int
  | secondOfMinute _ => 60
  | minuteOfHour _ => 3600
  | hourOfDay _ => 86400
  | dayOfWeek _ => 604800

/-- The number of days from one day of the week to the next `target`, none if it is that day, both
counted from Monday. -/
def daysAhead (today target : Nat) : Nat := (target + 7 - today) % 7

/-- The instant of an occasion nearest to `now` by its fields: in the same minute, hour or day, and
for a weekday on that day or within the six days that follow it, which may be beyond the range of
time. -/
def candidate? (now : Instant) : Occasion → Option Instant
  | secondOfMinute s => (TimeOfDay.ofFields? now.hour now.minute s).map now.atTime
  | minuteOfHour m => (TimeOfDay.ofFields? now.hour m 0).map now.atTime
  | hourOfDay h => (TimeOfDay.ofFields? h 0 0).map now.atTime
  | dayOfWeek d =>
    (now.atTime .midnight).add? (daysAhead now.daysSinceMonday d.index * 86400000000000)

/-- An instant, or else the one `period` nanoseconds later, if the instant is not strictly after
`now`. -/
def strictlyAfter? (now candidate : Instant) (period : Int) : Option Instant :=
  if now < candidate then some candidate else candidate.add? period

/-- The first instant of the occasion strictly after `now`, if it is in the range of time. -/
def next? (o : Occasion) (now : Instant) : Option Instant :=
  (o.candidate? now).bind fun candidate => strictlyAfter? now candidate (o.period * 1000000000)

end Occasion

end Cadence
