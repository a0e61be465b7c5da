import Cadence.Duration.Basic

/-!
# Sleeping and cancelling

What outlives a single run: whether work was cancelled, and which sleeps were recorded. Once
cancelled, a session stays so.

A sleeper that records takes no time. It can be told to cancel the session instead of taking a
sleep, as if somebody had done so meanwhile. A sleeper that waits lets the time pass and records
nothing. It is woken when somebody cancels the session, and has then not completed the sleep.

## Main definitions

* `Session` — what outlives a run
* `Sleeper` — the kinds of sleeper
* `Sleeper.sleep` — sleeps, unless the session is or becomes cancelled
-/

namespace Cadence

/-- What outlives a single run. -/
structure Session where
  /-- Whether the session was cancelled. -/
  cancelled : Bool
  /-- The recorded sleeps, in order. -/
  recorded : List Duration
  /-- The number of decisions an observer was told of. -/
  noticed : Nat
deriving DecidableEq

namespace Session

/-- A session in which nothing has happened. -/
def fresh : Session := ⟨false, [], 0⟩

/-- Cancels the session. -/
def cancel (s : Session) : Session := { s with cancelled := true }

/-- Cancels the session if a condition holds. -/
def cancelIf (condition : Bool) (s : Session) : Session := if condition then s.cancel else s

/-- The sum of the recorded sleeps, if it is not too long for a duration. -/
def total? (s : Session) : Option Duration := Duration.sum? s.recorded

end Session

/-- How to sleep. -/
inductive Sleeper where
  /-- Records sleeps. When it has recorded `cancelAfter` of them it cancels the session instead of
  taking the next. -/
  | recording (cancelAfter : Option Nat)
  /-- Lets the time pass. -/
  | waiting
deriving DecidableEq

/-- What is said of a sleep that was interrupted. -/
def Sleeper.interruptedMessage : String := "cancelled"

/-- Sleeps: whether the sleep was completed, which it is unless the session is cancelled before it
is over. Somebody else may do so `meanwhile`; a sleeper that records then finds the session
cancelled already. -/
def Sleeper.sleep (sleeper : Sleeper) (delay : Duration) (meanwhile : Bool) (s : Session) :
    Bool × Session :=
  let s := s.cancelIf meanwhile
  if s.cancelled then (false, s)
  else
    match sleeper with
    | waiting => (true, s)
    | recording cancelAfter =>
      if cancelAfter = some s.recorded.length then (false, s.cancel)
      else (true, { s with recorded := s.recorded ++ [delay] })

end Cadence
