import Cadence.Random.Source
import Cadence.Sources.Table
import Cadence.Time.ScriptedClock

/-!
# The sources schedules draw on

The world in which schedule expressions are stepped: sources of randomness and clocks, each under a
name. One source of randomness is shared by everything that asks for no particular one. Whoever
names a source draws on the same one as all others that name it.

## Main definitions

* `SourceName` — the names of sources of randomness
* `Sources` — all sources and clocks
* `Sources.random`, `Sources.clock` — the source or the clock with a name
* `Sources.unit`, `Sources.uniformDuration`, `Sources.now` — draws and readings by name
* `Sources.addRandom` — one more source

## Main results

* `Sources.random_setRandom`, `Sources.clock_setClock` — a write changes what it names and nothing
  else
-/

namespace Cadence

/-- The name of a source of randomness. -/
inductive SourceName where
  /-- The source for those that ask for no particular one. -/
  | shared
  /-- A source by its number. -/
  | numbered (n : Nat)
deriving DecidableEq

/-- Sources of randomness and clocks. -/
structure Sources where
  /-- The shared source of randomness. -/
  shared : RandomSource
  /-- The numbered sources of randomness. -/
  randoms : Table RandomSource
  /-- The clocks. -/
  clocks : Table ScriptedClock

namespace Sources

/-- Sources of randomness with the given seeds and clocks with the given scripts, numbered in order.
The shared source has the seed zero. -/
def ofSeedsAndScripts (streams : SeedStream) (seeds : List UInt64)
    (scripts : List (List Instant)) : Sources where
  shared := .seeded streams 0
  randoms := ⟨(seeds.map (RandomSource.seeded streams)).toArray⟩
  clocks := ⟨(scripts.map ScriptedClock.ofScript).toArray⟩

/-! ### By name -/

/-- The source of randomness with a name. -/
def random (w : Sources) : SourceName → RandomSource
  | .shared => w.shared
  | .numbered n => w.randoms.get n

/-- The sources with the named source of randomness replaced. -/
def setRandom (w : Sources) (name : SourceName) (r : RandomSource) : Sources :=
  match name with
  | .shared => { w with shared := r }
  | .numbered n => { w with randoms := w.randoms.set n r }

/-- The clock with a number. -/
def clock (w : Sources) (i : Nat) : ScriptedClock := w.clocks.get i

/-- The sources with the clock of a number replaced. -/
def setClock (w : Sources) (i : Nat) (c : ScriptedClock) : Sources :=
  { w with clocks := w.clocks.set i c }

/-- The sources with one more source of randomness, and its name. -/
def addRandom (w : Sources) (r : RandomSource) : SourceName × Sources :=
  let added := w.randoms.add r
  (.numbered added.1, { w with randoms := added.2 })

theorem random_setRandom (w : Sources) (a b : SourceName) (r : RandomSource) :
    (w.setRandom a r).random b = if b = a then r else w.random b := by
  cases a <;> cases b <;> simp [setRandom, random, Table.get_set]

@[simp] theorem clock_setRandom (w : Sources) (a : SourceName) (r : RandomSource) (i : Nat) :
    (w.setRandom a r).clock i = w.clock i := by
  cases a <;> rfl

theorem clock_setClock (w : Sources) (i j : Nat) (c : ScriptedClock) :
    (w.setClock i c).clock j = if j = i then c else w.clock j :=
  Table.get_set ..

@[simp] theorem random_setClock (w : Sources) (i : Nat) (c : ScriptedClock) (a : SourceName) :
    (w.setClock i c).random a = w.random a := by
  cases a <;> rfl

/-! ### Drawing and reading -/

/-- Draws a number from zero up to one. -/
def unit (name : SourceName) (w : Sources) : Float × Sources :=
  let drawn := (w.random name).unit
  (drawn.1, w.setRandom name drawn.2)

/-- Draws a duration from a range. -/
def uniformDuration (name : SourceName) (a b : Duration) (w : Sources) : Duration × Sources :=
  let drawn := (w.random name).uniformDuration a b
  (drawn.1, w.setRandom name drawn.2)

/-- Reads a clock. -/
def now (i : Nat) (w : Sources) : Instant × Sources :=
  let reading := (w.clock i).read
  (reading.1, w.setClock i reading.2)

end Sources

end Cadence
