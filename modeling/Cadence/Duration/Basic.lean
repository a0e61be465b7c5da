/-!
# Durations

A duration is a whole number of nanoseconds, never negative and never longer than
`Duration.maxNanos`, the number of nanoseconds in `2 ^ 64` seconds, less one. Arithmetic does not
fail: a sum that is too long is cut off at the longest duration, and a difference stops at zero.

## Main definitions

* `Duration` — the type, ordered by length
* `Duration.ofNanos`, `ofMillis`, `ofSeconds` — whole units, cut off at the longest duration
* `Duration.ofParts?` — seconds and nanoseconds, refused when the total is too long
* `Duration.sum?` — an exact total, refused when it is too long

## Implementation notes

The bound is a field of the structure, so every statement about a `Duration` has it at hand. Two
durations are equal as soon as their numbers of nanoseconds are.
-/

namespace Cadence

/-- A non-negative length of time in whole nanoseconds, below `2 ^ 64` seconds. -/
@[ext]
structure Duration where
  /-- The length in nanoseconds. -/
  nanos : Nat
  /-- No duration reaches `2 ^ 64` seconds. -/
  nanos_le : nanos ≤ 18446744073709551615999999999
deriving DecidableEq

namespace Duration

/-! ### Units -/

/-- One second, in nanoseconds. -/
def nanosPerSecond : Nat := 1000000000

/-- One millisecond, in nanoseconds. -/
def nanosPerMilli : Nat := 1000000

/-- The length of the longest duration. -/
def maxNanos : Nat := 18446744073709551615999999999

/-- `n` nanoseconds, cut off at the longest duration. -/
def ofNanos (n : Nat) : Duration := ⟨min n maxNanos, Nat.min_le_right n maxNanos⟩

/-- `n` milliseconds, cut off at the longest duration. -/
def ofMillis (n : Nat) : Duration := ofNanos (n * nanosPerMilli)

/-- `n` seconds, cut off at the longest duration. -/
def ofSeconds (n : Nat) : Duration := ofNanos (n * nanosPerSecond)

/-- `seconds` and `nanos` together, or nothing if that is longer than the longest duration. The
nanoseconds may exceed a second. -/
def ofParts? (seconds nanos : Nat) : Option Duration :=
  if h : seconds * nanosPerSecond + nanos ≤ maxNanos then some ⟨_, h⟩ else none

/-- No time at all. -/
def zero : Duration := ⟨0, Nat.zero_le _⟩

/-- The longest duration. -/
def longest : Duration := ⟨maxNanos, Nat.le_refl _⟩

instance : Zero Duration := ⟨zero⟩

instance : Inhabited Duration := ⟨zero⟩

/-- The whole seconds of a duration. -/
def seconds (d : Duration) : Nat := d.nanos / nanosPerSecond

/-- The nanoseconds of a duration beyond its whole seconds. -/
def subsecond (d : Duration) : Nat := d.nanos % nanosPerSecond

/-- The whole milliseconds of a duration, cut off at the largest 64-bit number. -/
def millis (d : Duration) : Nat := min (d.nanos / nanosPerMilli) 18446744073709551615

/-- Whether a duration is no time at all. -/
def isZero (d : Duration) : Bool := d.nanos == 0

/-! ### Order -/

instance : LE Duration := ⟨fun a b => a.nanos ≤ b.nanos⟩

instance : LT Duration := ⟨fun a b => a.nanos < b.nanos⟩

instance (a b : Duration) : Decidable (a ≤ b) := inferInstanceAs (Decidable (a.nanos ≤ b.nanos))

instance (a b : Duration) : Decidable (a < b) := inferInstanceAs (Decidable (a.nanos < b.nanos))

instance : Min Duration := ⟨fun a b => if a ≤ b then a else b⟩

instance : Max Duration := ⟨fun a b => if a ≤ b then b else a⟩

instance : Ord Duration := ⟨fun a b => compare a.nanos b.nanos⟩

/-! ### Arithmetic -/

/-- The sum of two durations, cut off at the longest duration. -/
instance : Add Duration := ⟨fun a b => ofNanos (a.nanos + b.nanos)⟩

/-- The first duration less the second, and no time at all if the second is longer. -/
instance : Sub Duration := ⟨fun a b => ⟨a.nanos - b.nanos, Nat.le_trans (Nat.sub_le ..) a.nanos_le⟩⟩

/-- The exact total of a list of durations, or nothing if it is longer than the longest duration. -/
def sum? (ds : List Duration) : Option Duration :=
  ofParts? 0 (ds.foldr (fun d total => d.nanos + total) 0)

/-! ### Lengths of results -/

theorem le_def (a b : Duration) : a ≤ b ↔ a.nanos ≤ b.nanos := Iff.rfl

theorem lt_def (a b : Duration) : a < b ↔ a.nanos < b.nanos := Iff.rfl

@[simp] theorem nanos_zero : (0 : Duration).nanos = 0 := rfl

@[simp] theorem nanos_longest : longest.nanos = maxNanos := rfl

theorem nanos_le_maxNanos (d : Duration) : d.nanos ≤ maxNanos := d.nanos_le

@[simp] theorem nanos_ofNanos (n : Nat) : (ofNanos n).nanos = min n maxNanos := rfl

@[simp] theorem nanos_add (a b : Duration) :
    (a + b).nanos = min (a.nanos + b.nanos) maxNanos := rfl

@[simp] theorem nanos_sub (a b : Duration) : (a - b).nanos = a.nanos - b.nanos := rfl

theorem nanos_min (a b : Duration) : (min a b).nanos = min a.nanos b.nanos := by
  show (if a ≤ b then a else b).nanos = _
  split <;> rename_i h <;> rw [le_def] at h <;> omega

theorem nanos_max (a b : Duration) : (max a b).nanos = max a.nanos b.nanos := by
  show (if a ≤ b then b else a).nanos = _
  split <;> rename_i h <;> rw [le_def] at h <;> omega

/-- A duration is its own number of nanoseconds. -/
@[simp] theorem ofNanos_nanos (d : Duration) : ofNanos d.nanos = d :=
  Duration.ext (Nat.min_eq_left d.nanos_le)

end Duration

end Cadence
