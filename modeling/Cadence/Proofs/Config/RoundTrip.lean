import Cadence.Config.Check
import Cadence.Proofs.Json.Records

/-!
# Configurations written in JSON and read again

A configuration with finite factors is read from the JSON value that is written of it as the very
same configuration. The format could get in the way of this in several places. Each pattern of
delays is told by its kind and each form of random times by its fields alone, so one must not be
read as another; a growth factor has a default, which must not take the place of one that was
written; and fields without a value are left out, so their neighbours must still be found.

A factor that is not finite is written as `null`, which is no number. No configuration that passes
its checks has one, and none is ever read, so reading, writing and reading again is the same as
reading once.

## Scope

How JSON values are written as texts and read from them is left open. A writer is any function from
values to texts and a reader any function back. What is asked of them is that the value at hand is
read from its text as it was written, which holds integers and finite numbers only.

## Main definitions

* `Config.FactorsFinite` — all factors of a configuration are finite
* `Config.ReadsBack` — what is asked of a reader and a writer of JSON
* `Config.RoundTrips` — a configuration is read as what was written

## Main results

* `Backoff.ofJson?_toJson`, `Jitter.ofJson?_toJson`, `Config.ofJson?_toJson` — the configuration of
  the JSON value of a configuration
* `Config.factorsFinite_of_validate` — the factors of a configuration that passes its checks are
  finite
* `Config.factorsFinite_of_ofJson?` — so are those of a configuration that was read
* `Config.fits_toJson` — what is written of a configuration is what a reader must read back
* `Config.roundTrips_of_finite` — configurations with finite factors are read as they were written
-/

namespace Cadence

open Json (members)

theorem isFinite_of_checkFactor {field : String} {value : Float} {zeroAllowed : Bool}
    (h : checkFactor field value zeroAllowed = .ok ()) : value.isFinite = true := by
  cases hfinite : value.isFinite with
  | true => rfl
  | false => simp [checkFactor, hfinite] at h

/-! ### Patterns of delays -/

namespace Backoff

/-- The factors of a pattern of delays. -/
def factors : Backoff → List Float
  | linear _ factor => [factor]
  | exponential _ factor => [factor]
  | _ => []

/-- The kind of a pattern of delays. -/
def kind : Backoff → String
  | spaced _ => "spaced"
  | linear _ _ => "linear"
  | exponential _ _ => "exponential"
  | fibonacci _ => "fibonacci"
  | durations _ => "durations"
  | decorrelated _ _ => "aws_decorrelated"
  | smoothDecorrelated _ => "polly_decorrelated"
  | forever => "forever"

/-- The fields of a pattern of delays. -/
def fields : Backoff → List (String × Option Json)
  | spaced delay => [("delay_ms", some (.ofWord delay))]
  | linear seed factor => [("seed_ms", some (.ofWord seed)), ("factor", some (.ofReal factor))]
  | exponential seed factor => [("seed_ms", some (.ofWord seed)), ("factor", some (.ofReal factor))]
  | fibonacci seed => [("seed_ms", some (.ofWord seed))]
  | durations delays => [("delays_ms", some (.array (delays.map .ofWord)))]
  | decorrelated low high => [("min_ms", some (.ofWord low)), ("max_ms", some (.ofWord high))]
  | smoothDecorrelated median => [("median_first_ms", some (.ofWord median))]
  | forever => []

theorem toJson_eq_tagged (b : Backoff) : b.toJson = tagged b.kind (members b.fields) := by
  cases b <;> rfl

/-- A list of delays takes up one of the levels below the pattern itself. -/
theorem fits_fields (b : Backoff) :
    ∀ field ∈ b.fields, ∀ value ∈ field.2, value.fits (Config.levels - 1) = true := by
  cases b <;> simp [fields, Json.fits, Json.fitsItems_eq_all, Config.levels]

theorem fits_toJson (b : Backoff) : b.toJson.fits Config.levels = true := by
  have hlevels : 0 < Config.levels := by decide
  rw [toJson_eq_tagged, tagged, Json.fits, Json.fitsMembers, Json.fitsMembers_members b.fits_fields]
  simp [Json.fits, hlevels]

theorem nodup_fields (b : Backoff) : (b.fields.map Prod.fst).Nodup := by
  cases b <;> simp [fields]

theorem kind_not_mem_fields (b : Backoff) : "kind" ∉ b.fields.map Prod.fst := by
  cases b <;> simp [fields]

variable {record : Json} {make : UInt64 → Backoff} {grow : UInt64 → Float → Backoff}

theorem ofTime?_eq_some {name : String} {time : UInt64}
    (h : record.fields? true [name] = some [some (.ofWord time)]) :
    ofTime? name make record = some (make time) := by
  simp [ofTime?, h, Json.required]

theorem ofGrowth?_eq_some {growth factor : Float} {seed : UInt64}
    (h : record.fields? true ["seed_ms", "factor"] =
      some [some (.ofWord seed), some (.ofReal factor)]) (hfinite : factor.isFinite = true) :
    ofGrowth? growth grow record = some (grow seed factor) := by
  simp [ofGrowth?, h, Json.required, Json.withDefault, Json.real?_ofReal hfinite]

theorem ofDurations?_eq_some {delays : List UInt64}
    (h : record.fields? true ["delays_ms"] = some [some (.array (delays.map .ofWord))]) :
    ofDurations? record = some (durations delays) := by
  simp [ofDurations?, h, Json.required, Json.list?_map Json.word64?_ofWord]

theorem ofBounds?_eq_some {low high : UInt64}
    (h : record.fields? true ["min_ms", "max_ms"] =
      some [some (.ofWord low), some (.ofWord high)]) :
    ofBounds? record = some (decorrelated low high) := by
  simp [ofBounds?, h, Json.required]

/-- A pattern of delays is read from its fields by the reader of its kind. -/
theorem ofKind?_fields (b : Backoff) (h : ∀ x ∈ b.factors, x.isFinite = true) :
    ofKind? b.kind (.object (members b.fields)) = some b := by
  have hfields := Json.fields?_members b.nodup_fields
  cases b with
  | spaced delay => exact ofTime?_eq_some hfields
  | linear seed factor => exact ofGrowth?_eq_some hfields (h factor List.mem_cons_self)
  | exponential seed factor => exact ofGrowth?_eq_some hfields (h factor List.mem_cons_self)
  | fibonacci seed => exact ofTime?_eq_some hfields
  | durations delays => exact ofDurations?_eq_some hfields
  | decorrelated low high => exact ofBounds?_eq_some hfields
  | smoothDecorrelated median => exact ofTime?_eq_some hfields
  | forever => rfl

theorem ofJson?_toJson (b : Backoff) (h : ∀ x ∈ b.factors, x.isFinite = true) :
    ofJson? b.toJson = some b := by
  rw [ofJson?, if_pos b.fits_toJson, toJson_eq_tagged,
    Json.tagged?_tagged b.kind b.kind_not_mem_fields]
  exact b.ofKind?_fields h

theorem isFinite_of_validate {b : Backoff} (h : b.validate = .ok ()) :
    ∀ x ∈ b.factors, x.isFinite = true := by
  cases b with
  | linear _ factor => simpa [factors] using isFinite_of_checkFactor h
  | exponential _ factor => simpa [factors] using isFinite_of_checkFactor h
  | _ => exact fun x hx => nomatch hx

theorem exists_of_ofTime? {name : String} {b : Backoff} (h : ofTime? name make record = some b) :
    ∃ time, b = make time := by
  unfold ofTime? at h
  split at h
  · obtain ⟨time, -, htime⟩ := Option.map_eq_some_iff.mp h
    exact ⟨time, htime.symm⟩
  · cases h

/-- The default of a growth factor is finite, and so is any factor that was read. -/
theorem exists_of_ofGrowth? {growth : Float} {b : Backoff} (hgrowth : growth.isFinite = true)
    (h : ofGrowth? growth grow record = some b) :
    ∃ seed factor, factor.isFinite = true ∧ b = grow seed factor := by
  unfold ofGrowth? at h
  split at h
  · next seed factor _ =>
    simp only [Option.bind_eq_bind, Option.bind_eq_some_iff] at h
    obtain ⟨seed', -, factor', hfactor, h⟩ := h
    refine ⟨seed', factor', ?_, (Option.some.inj h).symm⟩
    cases factor with
    | none => exact Option.some.inj hfactor ▸ hgrowth
    | some json => exact Json.isFinite_of_real? hfactor
  · cases h

theorem exists_of_ofDurations? {b : Backoff} (h : ofDurations? record = some b) :
    ∃ delays, b = durations delays := by
  unfold ofDurations? at h
  split at h
  · obtain ⟨delays, -, hdelays⟩ := Option.map_eq_some_iff.mp h
    exact ⟨delays, hdelays.symm⟩
  · cases h

theorem exists_of_ofBounds? {b : Backoff} (h : ofBounds? record = some b) :
    ∃ low high, b = decorrelated low high := by
  unfold ofBounds? at h
  split at h
  · simp only [Option.bind_eq_bind, Option.bind_eq_some_iff] at h
    obtain ⟨low, -, high, -, h⟩ := h
    exact ⟨low, high, (Option.some.inj h).symm⟩
  · cases h

theorem isFinite_of_ofKind? {kind : String} {b : Backoff} (h : ofKind? kind record = some b) :
    ∀ x ∈ b.factors, x.isFinite = true := by
  unfold ofKind? at h
  -- one case a kind, in the order of the reader; the last one is a kind that is not known
  split at h
  · obtain ⟨time, rfl⟩ := exists_of_ofTime? h
    exact fun x hx => nomatch hx
  · obtain ⟨seed, factor, hfinite, rfl⟩ := exists_of_ofGrowth? rfl h
    simpa [factors] using hfinite
  · obtain ⟨seed, factor, hfinite, rfl⟩ := exists_of_ofGrowth? rfl h
    simpa [factors] using hfinite
  · obtain ⟨time, rfl⟩ := exists_of_ofTime? h
    exact fun x hx => nomatch hx
  · obtain ⟨delays, rfl⟩ := exists_of_ofDurations? h
    exact fun x hx => nomatch hx
  · obtain ⟨low, high, rfl⟩ := exists_of_ofBounds? h
    exact fun x hx => nomatch hx
  · obtain ⟨time, rfl⟩ := exists_of_ofTime? h
    exact fun x hx => nomatch hx
  · obtain ⟨_, -, rfl⟩ := Option.map_eq_some_iff.mp h
    exact fun x hx => nomatch hx
  · cases h

theorem isFinite_of_ofJson? {json : Json} {b : Backoff} (h : ofJson? json = some b) :
    ∀ x ∈ b.factors, x.isFinite = true := by
  unfold ofJson? at h
  split at h
  · split at h
    · exact isFinite_of_ofKind? h
    · cases h
  · cases h

theorem beq_self {b : Backoff} (h : ∀ x ∈ b.factors, x.isFinite = true) : (b == b) = true := by
  cases b with
  | linear seed factor =>
    change (seed == seed && factor == factor) = true
    simp [beq_self_of_isFinite (h factor List.mem_cons_self)]
  | exponential seed factor =>
    change (seed == seed && factor == factor) = true
    simp [beq_self_of_isFinite (h factor List.mem_cons_self)]
  | durations delays => exact beq_self_eq_true delays
  | _ => simp [BEq.beq, instBEqBackoff.beq]

end Backoff

/-! ### Random times -/

namespace Jitter

/-- The factors of random times. -/
def factors : Jitter → List Float
  | between _ _ => []
  | proportional factor => [factor]

/-- The fields of random times. -/
def fields : Jitter → List (String × Option Json)
  | between low high => [("min_ms", some (.ofWord low)), ("max_ms", some (.ofWord high))]
  | proportional factor => [("factor", some (.ofReal factor))]

theorem toJson_eq_object (j : Jitter) : j.toJson = .object (members j.fields) := by
  cases j <;> rfl

theorem nodup_fields (j : Jitter) : (j.fields.map Prod.fst).Nodup := by
  cases j <;> simp [fields]

theorem fits_toJson (j : Jitter) : j.toJson.fits Config.levels = true := by
  cases j <;> simp [toJson, Json.fits, Json.fitsMembers, Config.levels]

variable {object : Json}

theorem between?_eq_some {low high : UInt64}
    (h : object.fields? true ["min_ms", "max_ms"] =
      some [some (.ofWord low), some (.ofWord high)]) :
    between? object = some (between low high) := by
  simp [between?, h, Json.required]

theorem proportional?_eq_some {factor : Float}
    (h : object.fields? true ["factor"] = some [some (.ofReal factor)])
    (hfinite : factor.isFinite = true) : proportional? object = some (proportional factor) := by
  simp [proportional?, h, Json.required, Json.real?_ofReal hfinite]

/-- A fraction is not taken for a range, which is tried first: it has neither end of one. -/
theorem ofJson?_toJson (j : Jitter) (h : ∀ x ∈ j.factors, x.isFinite = true) :
    ofJson? j.toJson = some j := by
  have hfields := Json.fields?_members j.nodup_fields
  have hfits := j.fits_toJson
  rw [toJson_eq_object] at hfits ⊢
  rw [ofJson?, if_pos hfits]
  cases j with
  | between low high => rw [between?_eq_some hfields, Option.some_or]
  | proportional factor =>
    -- neither end of a range is there, and both are required
    have hrange : between? (.object (members (proportional factor).fields)) = none := rfl
    rw [hrange, Option.none_or]
    exact proportional?_eq_some hfields (h factor List.mem_cons_self)

theorem isFinite_of_validate {j : Jitter} (h : j.validate = .ok ()) :
    ∀ x ∈ j.factors, x.isFinite = true := by
  cases j with
  | between => exact fun x hx => nomatch hx
  | proportional factor => simpa [factors] using isFinite_of_checkFactor h

theorem exists_of_between? {j : Jitter} (h : between? object = some j) :
    ∃ low high, j = between low high := by
  unfold between? at h
  split at h
  · simp only [Option.bind_eq_bind, Option.bind_eq_some_iff] at h
    obtain ⟨low, -, high, -, h⟩ := h
    exact ⟨low, high, (Option.some.inj h).symm⟩
  · cases h

theorem exists_of_proportional? {j : Jitter} (h : proportional? object = some j) :
    ∃ factor, factor.isFinite = true ∧ j = proportional factor := by
  unfold proportional? at h
  split at h
  · obtain ⟨factor, hfactor, hj⟩ := Option.map_eq_some_iff.mp h
    obtain ⟨json, -, hread⟩ := Option.bind_eq_some_iff.mp hfactor
    exact ⟨factor, Json.isFinite_of_real? hread, hj.symm⟩
  · cases h

theorem isFinite_of_ofJson? {json : Json} {j : Jitter} (h : ofJson? json = some j) :
    ∀ x ∈ j.factors, x.isFinite = true := by
  unfold ofJson? at h
  split at h
  · rw [Option.ite_none_right_eq_some, Option.or_eq_some_iff] at h
    obtain ⟨-, hrange | ⟨-, hfraction⟩⟩ := h
    · obtain ⟨low, high, rfl⟩ := exists_of_between? hrange
      exact fun x hx => nomatch hx
    · obtain ⟨factor, hfinite, rfl⟩ := exists_of_proportional? hfraction
      simpa [factors] using hfinite
  · cases h

theorem beq_self {j : Jitter} (h : ∀ x ∈ j.factors, x.isFinite = true) : (j == j) = true := by
  cases j with
  | between low high =>
    change (low == low && high == high) = true
    simp
  | proportional factor => exact beq_self_of_isFinite (h factor List.mem_cons_self)

end Jitter

/-! ### Configurations -/

namespace Config

/-- All factors of a configuration are finite. -/
structure FactorsFinite (c : Config) : Prop where
  /-- The growth factor of the pattern of delays is. -/
  backoff : ∀ x ∈ c.backoff.factors, x.isFinite = true
  /-- The fraction of the random times is. -/
  jitter : ∀ j ∈ c.jitter, ∀ x ∈ j.factors, x.isFinite = true

/-- The fields of a configuration. -/
def fields (c : Config) : List (String × Option Json) :=
  [("backoff", some c.backoff.toJson),
    ("max_retries", c.maxRetries.map fun n => .ofWord n.toUInt64),
    ("max_delay_ms", c.maxDelay.map .ofWord),
    ("max_cumulative_delay_ms", c.maxCumulativeDelay.map .ofWord),
    ("jitter", c.jitter.map Jitter.toJson),
    ("no_delay_on_first_retry", some (.bool c.noDelayOnFirstRetry)),
    ("seed", c.seed.map .ofWord)]

theorem toJson_eq_object (c : Config) : c.toJson = .object (members c.fields) := by
  simp [toJson, fields, Json.members, memberOf]

theorem ofJson?_toJson (c : Config) (h : c.FactorsFinite) : ofJson? c.toJson = some c := by
  have hfields : c.toJson.fields? true fieldNames = some (c.fields.map Prod.snd) := by
    rw [toJson_eq_object]
    exact Json.fields?_members (show fieldNames.Nodup by decide)
  have hbackoff := c.backoff.ofJson?_toJson h.backoff
  have hjitter : optionalField Jitter.ofJson? (c.jitter.map Jitter.toJson) = some c.jitter :=
    optionalField_map rfl fun j hj => j.ofJson?_toJson (h.jitter j hj)
  have hretries : optionalField Json.word32? (c.maxRetries.map fun n => .ofWord n.toUInt64) =
      some c.maxRetries := optionalField_map rfl fun n _ => Json.word32?_ofWord n
  have hword (n : Option UInt64) : optionalField Json.word64? (n.map .ofWord) = some n :=
    optionalField_map rfl fun n _ => Json.word64?_ofWord n
  rw [ofJson?, hfields]
  simp [fields, Json.required, hbackoff, hretries, hword, hjitter, Json.withDefault, Json.flag?]

/-! ### Configurations whose factors are finite -/

/-- The factors of a configuration that passes its checks are finite. -/
theorem factorsFinite_of_validate {c : Config} (h : c.validate = .ok ()) : c.FactorsFinite := by
  have hbackoff : c.backoff.validate = .ok () := by
    cases hchecked : c.backoff.validate with
    | ok => rfl
    | error e => simp [validate, hchecked, bind, Except.bind] at h
  refine ⟨Backoff.isFinite_of_validate hbackoff, fun j hj => ?_⟩
  apply Jitter.isFinite_of_validate
  cases hchecked : j.validate with
  | ok => rfl
  | error e =>
    simp [validate, hbackoff, Option.mem_def.mp hj, hchecked, bind, Except.bind] at h

/-- The factors of a configuration that was read are finite. -/
theorem factorsFinite_of_ofJson? {json : Json} {c : Config} (h : ofJson? json = some c) :
    c.FactorsFinite := by
  unfold ofJson? at h
  split at h
  · simp only [Option.bind_eq_bind, Option.bind_eq_some_iff] at h
    obtain ⟨backoff, hbackoff, retries, -, delay, -, total, -, jitter, hjitter, eager, -, seed, -,
      h⟩ := h
    obtain rfl := Option.some.inj h
    obtain ⟨json, -, hbackoff⟩ := Option.bind_eq_some_iff.mp hbackoff
    refine ⟨Backoff.isFinite_of_ofJson? hbackoff, fun j hj => ?_⟩
    obtain ⟨json, hjson⟩ := exists_of_optionalField hjitter j hj
    exact Jitter.isFinite_of_ofJson? hjson
  · cases h

/-! ### Equality -/

theorem beq_self {c : Config} (h : c.FactorsFinite) : (c == c) = true := by
  have hbackoff := Backoff.beq_self h.backoff
  have hjitter : (c.jitter == c.jitter) = true := by
    cases hj : c.jitter with
    | none => rfl
    | some j => exact Jitter.beq_self (h.jitter j hj)
  change (c.backoff == c.backoff && (c.maxRetries == c.maxRetries && (c.maxDelay == c.maxDelay &&
    (c.maxCumulativeDelay == c.maxCumulativeDelay && (c.jitter == c.jitter &&
      (c.noDelayOnFirstRetry == c.noDelayOnFirstRetry && c.seed == c.seed)))))) = true
  simp [hbackoff, hjitter]

/-! ### Texts -/

/-- What is written of a configuration holds texts, integers and finite numbers only, and none of
its parts is nested too deep. -/
theorem fits_toJson (c : Config) : c.toJson.fits (levels + 1) = true := by
  have hbackoff := c.backoff.fits_toJson
  have hfields : ∀ field ∈ c.fields, ∀ value ∈ field.2, value.fits levels = true := by
    simp [fields, Json.fits, hbackoff, Jitter.fits_toJson]
  rw [toJson_eq_object, Json.fits, Nat.add_sub_cancel, Json.fitsMembers_members hfields]
  rfl

/-- What is asked of a reader and a writer of JSON: a value that holds texts, integers and finite
numbers only, and is not nested too deep, is read from its text as it was written. -/
def ReadsBack (read? : String → Option Json) (write : Json → String) (json : Json) : Prop :=
  json.fits (levels + 1) = true → read? (write json) = some json

/-- A configuration is read as it was written. -/
structure RoundTrips (c : Config) : Prop where
  /-- The JSON value that is written is read as the configuration itself. -/
  value : ofJson? c.toJson = some c
  /-- So is its text, by any reader and writer of JSON that lose nothing of that value. -/
  text : ∀ read? write, ReadsBack read? write c.toJson →
    parse? read? (c.serialize write) = some c
  /-- The configuration that is read is equal to the one that was written also in the sense in
  which numbers are compared, where not everything is equal to itself. -/
  beq_self : (c == c) = true

theorem FactorsFinite.roundTrips {c : Config} (h : c.FactorsFinite) : c.RoundTrips := by
  have hvalue := ofJson?_toJson c h
  refine ⟨hvalue, fun read? write hreads => ?_, beq_self h⟩
  rw [parse?, serialize, hreads c.fits_toJson]
  exact hvalue

/-- The factors of a configuration that was read from a text are finite. -/
theorem factorsFinite_of_parse? {read? : String → Option Json} {text : String} {c : Config}
    (h : parse? read? text = some c) : c.FactorsFinite := by
  obtain ⟨json, -, hjson⟩ := Option.bind_eq_some_iff.mp h
  exact factorsFinite_of_ofJson? hjson

/-- A configuration is read as it was written if its factors are finite, as are those of any
configuration that passes its checks. The factors of a configuration that was read are finite, too,
so to write it and read it again changes nothing. -/
theorem roundTrips_of_finite :
    (∀ c : Config, c.FactorsFinite → c.RoundTrips) ∧
      (∀ c : Config, c.validate = .ok () → c.FactorsFinite) ∧
      ∀ (read? : String → Option Json) (write : Json → String) (text : String) (c : Config),
        parse? read? text = some c → ReadsBack read? write c.toJson →
          parse? read? (c.serialize write) = parse? read? text := by
  refine ⟨fun c h => h.roundTrips, fun c h => factorsFinite_of_validate h, ?_⟩
  intro read? write text c hparse hreads
  rw [hparse]
  exact (factorsFinite_of_parse? hparse).roundTrips.text read? write hreads

/-- A configuration from a text that leaves out its factor and holds a field that is `null`. It is
written with the factor and without the field. -/
theorem roundTrips_of_finite_defaults :
    let text :=
      "\x7b\"jitter\":\x7b\"factor\":0.5\x7d,\"seed\":null,\"max_retries\":5," ++
        "\"backoff\":\x7b\"seed_ms\":100,\"kind\":\"exponential\"\x7d\x7d"
    let json := Json.object
      [(some "jitter", .object [(some "factor", .number (.decimal 0.5))]), (some "seed", .null),
        (some "max_retries", .number (.integer 5)),
        (some "backoff", .object [(some "seed_ms", .number (.integer 100)),
          (some "kind", .text (some "exponential"))])]
    let written :=
      "\x7b\"backoff\":\x7b\"kind\":\"exponential\",\"seed_ms\":100,\"factor\":2.0\x7d," ++
        "\"max_retries\":5,\"jitter\":\x7b\"factor\":0.5\x7d,\"no_delay_on_first_retry\":false\x7d"
    let c := (ofBackoff (.exponential 100 2.0)).withMaxRetries 5 |>.withJitter (.proportional 0.5)
    let write : Json → String := fun _ => written
    let read? : String → Option Json := fun t =>
      if t = written then some c.toJson else if t = text then some json else none
    c.validate = .ok () ∧ c.RoundTrips ∧ parse? read? text = some c ∧
      ReadsBack read? write c.toJson ∧
      parse? read? (c.serialize write) = parse? read? text := by
  intro text json written c write read?
  have hvalid : c.validate = .ok () := rfl
  have hdiffer : text ≠ written := by decide
  have hparse : parse? read? text = some c := by
    simp only [parse?, read?, if_neg hdiffer]
    rfl
  have hreads : ReadsBack read? write c.toJson := fun _ => if_pos rfl
  exact ⟨hvalid, roundTrips_of_finite.1 c (roundTrips_of_finite.2.1 c hvalid), hparse, hreads,
    roundTrips_of_finite.2.2 read? write text c hparse hreads⟩

end Config

end Cadence
