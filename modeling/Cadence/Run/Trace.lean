import Cadence.Context

/-!
# What happens in a run

The calls of the effect, the decisions told to the observer, the entries of the log and the sleeps
of a run, in the order in which they happen.

## Main definitions

* `Event` — what an observer is told of a decision
* `LogEntry` — what is logged, with its `level`, `message` and `fields`
* `Happening` — one thing that happens
* `Happening.outcomes`, `events`, `log`, `sleeps` — the things of one kind in a trace
-/

namespace Cadence

/-- What an observer is told of a decision. -/
structure Event (α ε : Type) where
  /-- The number of the call that had the outcome, from one, as far as it is counted. -/
  attempt : Nat
  /-- The context in which the decision was made. -/
  context : Context
  /-- The outcome. -/
  outcome : Except ε α
  /-- The decision. -/
  decision : Decision

/-! ### The log -/

/-- How much detail a log entry is. -/
inductive LogLevel where
  | debug
  | trace
deriving DecidableEq

/-- The name of a level. -/
def LogLevel.text : LogLevel → String
  | debug => "DEBUG"
  | trace => "TRACE"

/-- An entry of the log. Each has the number of calls made so far. -/
inductive LogEntry where
  /-- The schedule decided; with the number of decisions and the sum of their delays so far. -/
  | decided (attempt iteration : Nat) (decision : Decision) (elapsed : Duration)
  /-- The schedule was not asked. -/
  | declined (attempt : Nat)
  /-- The run was cancelled before a call. -/
  | cancelled (attempt : Nat)
  /-- The run was cancelled in a sleep. -/
  | interrupted (attempt : Nat)
deriving DecidableEq

namespace LogEntry

/-- The level of an entry. -/
def level : LogEntry → LogLevel
  | declined _ => .trace
  | _ => .debug

/-- What an entry says. -/
def message : LogEntry → String
  | decided .. => "schedule decided"
  | declined _ => "predicate stopped the run"
  | cancelled _ => "run cancelled"
  | interrupted _ => "run cancelled while sleeping"

/-- The fields of an entry, each with its name. -/
def fields : LogEntry → List (String × String)
  | decided attempt iteration decision elapsed => [
      ("attempt", toString attempt),
      ("iteration", toString iteration),
      ("decision", decision.text),
      ("cumulative_delay", elapsed.text)]
  | declined attempt => [("attempt", toString attempt)]
  | cancelled attempt => [("attempt", toString attempt)]
  | interrupted attempt => [("attempt", toString attempt)]

end LogEntry

/-! ### Traces -/

/-- One thing that happens in a run. -/
inductive Happening (α ε : Type) where
  /-- The effect was called and had an outcome. -/
  | called (outcome : Except ε α)
  /-- The observer was told of a decision. -/
  | noticed (event : Event α ε)
  /-- Something was logged. -/
  | logged (entry : LogEntry)
  /-- There was a sleep, completed or not. -/
  | slept (delay : Duration) (completed : Bool)

namespace Happening

variable {α ε : Type}

/-- The outcomes of the calls in a trace. -/
def outcomes (trace : List (Happening α ε)) : List (Except ε α) :=
  trace.filterMap fun
    | called outcome => some outcome
    | _ => none

/-- The events in a trace. -/
def events (trace : List (Happening α ε)) : List (Event α ε) :=
  trace.filterMap fun
    | noticed event => some event
    | _ => none

/-- The log entries in a trace. -/
def log (trace : List (Happening α ε)) : List LogEntry :=
  trace.filterMap fun
    | logged entry => some entry
    | _ => none

/-- The delays of the completed sleeps in a trace. -/
def sleeps (trace : List (Happening α ε)) : List Duration :=
  trace.filterMap fun
    | slept delay true => some delay
    | _ => none

end Happening

end Cadence
