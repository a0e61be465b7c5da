import Cadence.Context
import Cadence.Record.Basic

/-!
# Durations, decisions and contexts as records
-/

namespace Cadence

/-- A duration as a record. -/
def Duration.record (d : Duration) : String := Record.wrap "PositiveDuration" d.text

/-- A decision as a record. -/
def Decision.record : Decision → String
  | complete => "Complete"
  | runAgain => "RunAgain"
  | runAfter delay => Record.wrap "DelayAndRunAgain" delay.record

/-- A context as a record. -/
def Context.record (c : Context) : String :=
  Record.fields "ScheduleContext" [
    ("iteration", toString c.iteration),
    ("last_result", Record.option (c.last.map Decision.record)),
    ("cumulative_applied_delay", c.elapsed.record)]

end Cadence
