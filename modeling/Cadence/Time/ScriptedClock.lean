import Cadence.Time.Instant

/-!
# A clock that follows a script

Time is read from a clock. A scripted clock shows given instants one after the other and then stays
at the last of them; it can also be set to an instant or moved, which ends the script.

## Main definitions

* `ScriptedClock` — the instants still to be shown and the current one
* `ScriptedClock.ofScript` — a clock at the start of its script
* `ScriptedClock.read`, `set`, `advance` — the operations
-/

namespace Cadence

/-- The state of a clock that follows a script. -/
structure ScriptedClock where
  /-- The instants still to be shown. -/
  pending : List Instant
  /-- The instant last shown, set or moved to. -/
  current : Instant
deriving DecidableEq

namespace ScriptedClock

/-- A clock that shows the instants of `script` in order. It stands at the first of them, and at the
start of 1970 if there is none. -/
def ofScript (script : List Instant) : ScriptedClock := ⟨script, script.head?.getD .epoch⟩

instance : Inhabited ScriptedClock := ⟨ofScript []⟩

/-- Reads the clock, which moves on to the next instant of the script, if there is one. -/
def read (c : ScriptedClock) : Instant × ScriptedClock :=
  match c.pending with
  | [] => (c.current, c)
  | t :: rest => (t, ⟨rest, t⟩)

/-- Ends the script and puts the clock at an instant. -/
def set (t : Instant) (_ : ScriptedClock) : ScriptedClock := ⟨[], t⟩

/-- Ends the script and moves the clock by `delta` nanoseconds. A move that leaves the range of
time, in either direction, puts it at the last instant. -/
def advance (delta : Int) (c : ScriptedClock) : ScriptedClock :=
  ⟨[], (c.current.add? delta).getD .last⟩

end ScriptedClock

end Cadence
