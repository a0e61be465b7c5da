import Cadence.Config.Basic
import Cadence.Json.Fields

/-!
# Configurations in JSON

A configuration is a record whose fields may be missing, all but the pattern of delays. The pattern
is a tagged record. The random times are an object, by whose fields their kind is told.

## Main definitions

* `Backoff.toJson`, `Jitter.toJson`, `Config.toJson` — a JSON value of a configuration
* `Backoff.ofJson?`, `Jitter.ofJson?`, `Config.ofJson?` — the configuration of a JSON value
* `Config.serialize`, `Config.parse?` — the text of a configuration, and the configuration of a text

## Implementation notes

How a JSON value is written as a text and read from one is left to a writer and a reader of JSON.

The patterns of delays and the random times are held on to as a whole before they are looked at, so
everything in them must fit, also where it is passed over. Other fields of a configuration are
passed over whatever they hold.
-/

namespace Cadence

/-- A word as a JSON value. -/
def Json.ofWord (n : UInt64) : Json := .number (.integer n.toNat)

/-- A floating-point number as a JSON value. One that is not finite has none and becomes `null`. -/
def Json.ofReal (x : Float) : Json := if x.isFinite then .number (.decimal x) else .null

/-- The number of arrays and objects that may be inside each other below a configuration. -/
def Config.levels : Nat := 126

namespace Backoff

/-- A tagged record: its kind and its fields. -/
def tagged (kind : String) (fields : List Json.Member) : Json :=
  .object ((some "kind", .text (some kind)) :: fields)

/-- A pattern of delays as a JSON value. -/
def toJson : Backoff → Json
  | spaced delay => tagged "spaced" [(some "delay_ms", .ofWord delay)]
  | linear seed factor =>
    tagged "linear" [(some "seed_ms", .ofWord seed), (some "factor", .ofReal factor)]
  | exponential seed factor =>
    tagged "exponential" [(some "seed_ms", .ofWord seed), (some "factor", .ofReal factor)]
  | fibonacci seed => tagged "fibonacci" [(some "seed_ms", .ofWord seed)]
  | durations delays => tagged "durations" [(some "delays_ms", .array (delays.map .ofWord))]
  | decorrelated low high =>
    tagged "aws_decorrelated" [(some "min_ms", .ofWord low), (some "max_ms", .ofWord high)]
  | smoothDecorrelated median =>
    tagged "polly_decorrelated" [(some "median_first_ms", .ofWord median)]
  | forever => tagged "forever" []

/-- A pattern of delays with a single time. -/
def ofTime? (name : String) (make : UInt64 → Backoff) (record : Json) : Option Backoff :=
  match record.fields? true [name] with
  | some [time] => (Json.required Json.word64? time).map make
  | _ => none

/-- A pattern of growing delays, where `growth` is the factor if it is missing. -/
def ofGrowth? (growth : Float) (make : UInt64 → Float → Backoff) (record : Json) : Option Backoff :=
  match record.fields? true ["seed_ms", "factor"] with
  | some [seed, factor] => do
    let seed ← Json.required Json.word64? seed
    let factor ← Json.withDefault growth Json.real? factor
    some (make seed factor)
  | _ => none

/-- A list of delays. -/
def ofDurations? (record : Json) : Option Backoff :=
  match record.fields? true ["delays_ms"] with
  | some [delays] => (Json.required (Json.list? Json.word64?) delays).map durations
  | _ => none

/-- Random delays between two bounds. -/
def ofBounds? (record : Json) : Option Backoff :=
  match record.fields? true ["min_ms", "max_ms"] with
  | some [low, high] => do
    let low ← Json.required Json.word64? low
    let high ← Json.required Json.word64? high
    some (decorrelated low high)
  | _ => none

/-- The pattern of delays of a kind, from a record of its fields. -/
def ofKind? (kind : String) (record : Json) : Option Backoff :=
  match kind with
  | "spaced" => ofTime? "delay_ms" spaced record
  | "linear" => ofGrowth? 1.0 linear record
  | "exponential" => ofGrowth? 2.0 exponential record
  | "fibonacci" => ofTime? "seed_ms" fibonacci record
  | "durations" => ofDurations? record
  | "aws_decorrelated" => ofBounds? record
  | "polly_decorrelated" => ofTime? "median_first_ms" smoothDecorrelated record
  | "forever" => (record.fields? true []).map fun _ => forever
  | _ => none

/-- The pattern of delays of a JSON value. -/
def ofJson? (json : Json) : Option Backoff :=
  if json.fits Config.levels then
    match json.tagged? "kind" with
    | some (kind, record) => ofKind? kind record
    | none => none
  else none

end Backoff

namespace Jitter

/-- Random times as a JSON value. -/
def toJson : Jitter → Json
  | between low high => .object [(some "min_ms", .ofWord low), (some "max_ms", .ofWord high)]
  | proportional factor => .object [(some "factor", .ofReal factor)]

/-- A range of times, from an object with its two ends. -/
def between? (object : Json) : Option Jitter :=
  match object.fields? true ["min_ms", "max_ms"] with
  | some [low, high] => do
    let low ← Json.required Json.word64? low
    let high ← Json.required Json.word64? high
    some (between low high)
  | _ => none

/-- A fraction of the delay, from an object with the factor. -/
def proportional? (object : Json) : Option Jitter :=
  match object.fields? true ["factor"] with
  | some [factor] => (Json.required Json.real? factor).map proportional
  | _ => none

/-- The random times of a JSON value: a range if it has the fields of one, or else a fraction. -/
def ofJson? (json : Json) : Option Jitter :=
  match json with
  | .object _ =>
    if json.fits Config.levels then (between? json).or (proportional? json) else none
  | _ => none

end Jitter

namespace Config

/-- The members for a field that may have no value. -/
def memberOf (name : String) (value : Option Json) : List Json.Member :=
  value.toList.map fun value => (some name, value)

/-- A configuration as a JSON value. Fields without a value are left out. -/
def toJson (c : Config) : Json :=
  .object (
    [(some "backoff", c.backoff.toJson)] ++
    memberOf "max_retries" (c.maxRetries.map fun n => .ofWord n.toUInt64) ++
    memberOf "max_delay_ms" (c.maxDelay.map .ofWord) ++
    memberOf "max_cumulative_delay_ms" (c.maxCumulativeDelay.map .ofWord) ++
    memberOf "jitter" (c.jitter.map Jitter.toJson) ++
    [(some "no_delay_on_first_retry", .bool c.noDelayOnFirstRetry)] ++
    memberOf "seed" (c.seed.map .ofWord))

/-- The names of the fields, in the order of an array. -/
def fieldNames : List String :=
  ["backoff", "max_retries", "max_delay_ms", "max_cumulative_delay_ms", "jitter",
    "no_delay_on_first_retry", "seed"]

/-- A field that may be missing or `null`. -/
def optionalField {α : Type} (read? : Json → Option α) : Option Json → Option (Option α) :=
  Json.withDefault none (Json.optional? read?)

/-- The configuration of a JSON value. -/
def ofJson? (json : Json) : Option Config :=
  match json.fields? true fieldNames with
  | some [backoff, retries, delay, total, jitter, eager, seed] => do
    let backoff ← Json.required Backoff.ofJson? backoff
    let retries ← optionalField Json.word32? retries
    let delay ← optionalField Json.word64? delay
    let total ← optionalField Json.word64? total
    let jitter ← optionalField Jitter.ofJson? jitter
    let eager ← Json.withDefault false Json.flag? eager
    let seed ← optionalField Json.word64? seed
    some ⟨backoff, retries, delay, total, jitter, eager, seed⟩
  | _ => none

/-- The text of a configuration, by a writer of JSON. -/
def serialize (write : Json → String) (c : Config) : String := write c.toJson

/-- The configuration of a text, by a reader of JSON. -/
def parse? (read? : String → Option Json) (text : String) : Option Config :=
  (read? text).bind ofJson?

end Config

end Cadence
