import Cadence.Duration.Basic
import Cadence.Json.Fields

/-!
# Durations in JSON

In JSON a duration is a record of its whole seconds, `secs`, and of the nanoseconds beyond them,
`nanos`. The nanoseconds that are read may be more than a second.

## Main definitions

* `Duration.toJson` — a duration as a JSON value
* `Duration.ofJson?` — the duration of a JSON value
-/

namespace Cadence.Duration

/-- A duration as a JSON value. -/
def toJson (d : Duration) : Json :=
  .object [
    (some "secs", .number (.integer d.seconds)),
    (some "nanos", .number (.integer d.subsecond))]

/-- The duration of a JSON value, which must be a record with exactly the two fields. -/
def ofJson? (json : Json) : Option Duration :=
  match json.fields? false ["secs", "nanos"] with
  | some [seconds, nanos] => do
    let seconds ← Json.required Json.word64? seconds
    let nanos ← Json.required Json.word32? nanos
    ofParts? seconds.toNat nanos.toNat
  | _ => none

end Cadence.Duration
