import Cadence.Proofs.Expr.Continuations
import Cadence.Proofs.Schedule.Completion
import Cadence.Proofs.Schedule.Moves

/-!
# What an expression names

The schedule of an expression draws on the sources and reads the clocks that the expression names,
and has nothing to do with any other. Two expressions that name no common source or clock can
therefore be stepped in either order.

## Main definitions

* `InputName`, `Expr.names` — the names of sources and clocks, and those in an expression
* `Query`, `Readings.ask` — a draw or a reading
* `Readings.Separate` — draws and readings under different names have nothing to do with each other
* `Schedule.Separate` — neither do the steps of two schedules

## Main results

* `Expr.moves` — what is true of the draws and readings an expression names is true of its steps
* `Expr.separate_of_disjoint` — expressions without a common name are separate
* `Expr.sourceless_of_names` — an expression without names is without sources
* `Sources.separate_readings` — sources and clocks with different names are separate
-/

namespace Cadence

variable {σ α β : Type}

/-- The name of a source of randomness or of a clock. -/
inductive InputName where
  | random (source : SourceName)
  | clock (i : Nat)
deriving DecidableEq

/-- The names of the sources and the clocks in an expression. -/
def Expr.names : Expr → List InputName
  | decorrelated _ _ source | smoothDecorrelated _ source => [.random source]
  | fixed _ clock | windowed _ clock | onOccasion _ clock => [.clock clock]
  | union l r | intersect l r | andThen l r => l.names ++ r.names
  | maxDelay inner _ | maxCumulativeDelay inner _ | noDelayOnFirstRetry inner | boxed inner =>
    inner.names
  | jitter inner _ source => .random source :: inner.names
  | once | forever | recurs _ | spaced _ | linear _ _ | exponential _ _ | fibonacci _
  | fromDurations _ => []

/-! ### Draws and readings -/

/-- A draw from a source of randomness, or a reading of a clock. -/
inductive Query where
  | unit (source : SourceName)
  | uniformDuration (source : SourceName) (low high : Duration)
  | now (clock : Nat)

/-- What is asked. -/
def Query.name : Query → InputName
  | unit source | uniformDuration source _ _ => .random source
  | now clock => .clock clock

/-- The answers. -/
abbrev Query.Answer : Query → Type
  | unit _ => Float
  | uniformDuration _ _ _ => Duration
  | now _ => Instant

namespace Readings

/-- A draw or a reading as a move. -/
def ask (readings : Readings σ) : (q : Query) → Move σ q.Answer
  | .unit source => readings.unit source
  | .uniformDuration source low high => readings.uniformDuration source low high
  | .now clock => readings.now clock

/-- Draws and readings under different names have nothing to do with each other. -/
def Separate (readings : Readings σ) : Prop :=
  ∀ q q' : Query, q.name ≠ q'.name → (readings.ask q).Separate (readings.ask q')

end Readings

/-! ### The steps of expressions -/

/-- **Steps are made of named draws and readings.** What is true of moves that are put together, and
of the draws and readings under the names in an expression, is true of all its steps. -/
theorem Expr.moves {P : ∀ {α : Type}, Move σ α → Prop} (law : Move.Composes P)
    (readings : Readings σ) {e : Expr} (h : ∀ q : Query, q.name ∈ e.names → P (readings.ask q)) :
    (e.scheduleIn readings).Moves P := by
  induction e with
  | once => exact Schedule.moves_ofContext law _
  | forever => exact Schedule.moves_ofContext law _
  | recurs times => exact Schedule.moves_ofContext law _
  | spaced delay => exact Schedule.moves_ofContext law _
  | linear seed factor => exact Schedule.moves_ofContext law _
  | exponential seed factor => exact Schedule.moves_ofContext law _
  | fibonacci seed => exact Schedule.moves_fibonacci law seed
  | fromDurations delays => exact Schedule.moves_ofContext law _
  | decorrelated a b source =>
    exact Schedule.moves_decorrelated law a b fun low high =>
      h (.uniformDuration source low high) (List.mem_singleton_self _)
  | smoothDecorrelated median source =>
    exact Schedule.moves_smoothDecorrelated law median
      (h (.unit source) (List.mem_singleton_self _))
  | fixed interval clock =>
    exact Schedule.moves_fixed law interval (h (.now clock) (List.mem_singleton_self _))
  | windowed interval clock =>
    exact Schedule.moves_windowed law interval (h (.now clock) (List.mem_singleton_self _))
  | onOccasion occasion clock =>
    exact Schedule.moves_onOccasion law occasion (h (.now clock) (List.mem_singleton_self _))
  | union l r hl hr =>
    exact .sideBySide law _ (hl fun q hq => h q (List.mem_append_left _ hq))
      (hr fun q hq => h q (List.mem_append_right _ hq))
  | intersect l r hl hr =>
    exact .sideBySide law _ (hl fun q hq => h q (List.mem_append_left _ hq))
      (hr fun q hq => h q (List.mem_append_right _ hq))
  | andThen first second hfirst hsecond =>
    exact .andThen law (hfirst fun q hq => h q (List.mem_append_left _ hq))
      (hsecond fun q hq => h q (List.mem_append_right _ hq))
  | maxDelay inner limit ih => exact (ih h).maxDelay law limit
  | maxCumulativeDelay inner limit ih => exact (ih h).maxCumulativeDelay law limit
  | noDelayOnFirstRetry inner ih => exact (ih h).noDelayOnFirstRetry law
  | jitter inner spread source ih =>
    exact (ih fun q hq => h q (List.mem_cons_of_mem _ hq)).jitter law spread fun low high =>
      h (.uniformDuration source low high) List.mem_cons_self
  | boxed inner ih => exact (ih h).boxed law

/-- The steps of two schedules have nothing to do with each other. -/
def Schedule.Separate (s t : Schedule σ) : Prop :=
  ∀ state context state' context',
    (Move.ofStep (s.step state context)).Separate (Move.ofStep (t.step state' context'))

namespace Expr

/-- **Expressions without a common name** have nothing to do with each other. -/
theorem separate_of_disjoint {readings : Readings σ} (h : readings.Separate) {e e' : Expr}
    (hdisjoint : e.names.Disjoint e'.names) :
    (e.scheduleIn readings).Separate (e'.scheduleIn readings) := by
  intro state context state' context'
  -- a step of the first is made of its draws and readings, each of them separate from a step of the
  -- second, which in turn is made of its own
  refine moves (Move.composes_separate _) readings ?_ state context
  intro q hq
  refine (moves (Move.composes_separate _) readings ?_ state' context').symm
  intro q' hq'
  refine h q' q ?_
  intro hname
  exact hdisjoint hq (hname ▸ hq')

/-- **An expression without names** neither draws nor reads a clock. -/
theorem sourceless_of_names (readings : Readings σ) {e : Expr} (h : e.names = []) :
    (e.scheduleIn readings).Sourceless := by
  intro state context
  obtain ⟨⟨decision, next⟩, hmove⟩ := moves Move.composes_pure readings
    (fun q hq => absurd (h ▸ hq) List.not_mem_nil) state context
  refine ⟨decision, next, fun world => ?_⟩
  have hmade := congrFun hmove world
  exact Step.ext (congrArg (·.1.1) hmade) (congrArg (·.1.2) hmade) (congrArg (·.2) hmade)

end Expr

/-! ### The named sources -/

namespace Table

variable [Inhabited α]

theorem size_set (t : Table α) (i : Nat) (x : α) :
    (t.set i x).entries.size = max t.entries.size (i + 1) := by
  unfold set
  split
  · rename_i h
    rw [Array.size_set]
    omega
  · rename_i h
    simp only [Array.size_push, Array.size_append, Array.size_replicate]
    omega

/-- Tables of one size with the same values are the same. -/
theorem ext_get {t u : Table α} (hsize : t.entries.size = u.entries.size)
    (hget : ∀ i, t.get i = u.get i) : t = u := by
  obtain ⟨entries⟩ := t
  obtain ⟨entries'⟩ := u
  refine congrArg Table.mk (Array.ext hsize ?_)
  intro i hi hi'
  have hvalue := hget i
  simp only [get, Array.getD, dif_pos hi, dif_pos hi'] at hvalue
  exact hvalue

/-- Writes at different numbers can be made in either order. -/
theorem set_comm (t : Table α) {i j : Nat} (h : i ≠ j) (x y : α) :
    (t.set i x).set j y = (t.set j y).set i x := by
  refine ext_get ?_ ?_
  · simp only [size_set]
    omega
  · intro k
    simp only [get_set]
    by_cases hj : k = j
    · rw [if_pos hj, if_neg (by omega), if_pos hj]
    · rw [if_neg hj, if_neg hj]

end Table

namespace Sources

theorem setRandom_comm (w : Sources) {a b : SourceName} (h : a ≠ b) (r r' : RandomSource) :
    (w.setRandom a r).setRandom b r' = (w.setRandom b r').setRandom a r := by
  cases a with
  | shared =>
    cases b with
    | shared => exact absurd rfl h
    | numbered m => rfl
  | numbered n =>
    cases b with
    | shared => rfl
    | numbered m =>
      have hne : n ≠ m := fun hnm => h (congrArg SourceName.numbered hnm)
      simp only [setRandom, w.randoms.set_comm hne]

theorem setClock_comm (w : Sources) {i j : Nat} (h : i ≠ j) (c c' : ScriptedClock) :
    (w.setClock i c).setClock j c' = (w.setClock j c').setClock i c := by
  simp only [setClock, w.clocks.set_comm h]

theorem setRandom_setClock (w : Sources) (a : SourceName) (i : Nat) (r : RandomSource)
    (c : ScriptedClock) : (w.setRandom a r).setClock i c = (w.setClock i c).setRandom a r := by
  cases a <;> rfl

/-- What is taken from a source of randomness, which is left in another state. -/
def drawWith (name : SourceName) (f : RandomSource → α × RandomSource) : Move Sources α :=
  fun w =>
    let drawn := f (w.random name)
    (drawn.1, w.setRandom name drawn.2)

theorem separate_drawWith {a b : SourceName} (h : a ≠ b) (f : RandomSource → α × RandomSource)
    (g : RandomSource → β × RandomSource) : (drawWith a f).Separate (drawWith b g) where
  left w := by simp only [drawWith, random_setRandom, if_neg h]
  right w := by simp only [drawWith, random_setRandom, if_neg h.symm]
  world w := by
    simp only [drawWith, random_setRandom, if_neg h, if_neg h.symm]
    exact w.setRandom_comm h _ _

theorem separate_now {i j : Nat} (h : i ≠ j) : Move.Separate (now i) (now j) where
  left w := by simp only [now, clock_setClock, if_neg h]
  right w := by simp only [now, clock_setClock, if_neg h.symm]
  world w := by
    simp only [now, clock_setClock, if_neg h, if_neg h.symm]
    exact w.setClock_comm h _ _

theorem separate_drawWith_now (a : SourceName) (i : Nat) (f : RandomSource → α × RandomSource) :
    (drawWith a f).Separate (now i) where
  left w := by simp only [drawWith, now, random_setClock]
  right w := by simp only [drawWith, now, clock_setRandom]
  world w := by
    simp only [drawWith, now, random_setClock, clock_setRandom]
    exact w.setRandom_setClock a i _ _

/-- **Sources and clocks with different names** have nothing to do with each other. -/
theorem separate_readings : readings.Separate := by
  -- both ways to draw are of one kind
  have hdraw : ∀ q : Query, (∃ a, q.name = .random a ∧ ∃ f, readings.ask q = drawWith a f) ∨
      ∃ i, q = .now i := by
    intro q
    cases q with
    | unit source => exact Or.inl ⟨source, rfl, RandomSource.unit, rfl⟩
    | uniformDuration source low high =>
      exact Or.inl ⟨source, rfl, fun r => r.uniformDuration low high, rfl⟩
    | now clock => exact Or.inr ⟨clock, rfl⟩
  intro q q' hne
  rcases hdraw q with ⟨a, ha, f, hf⟩ | ⟨i, rfl⟩
  · rcases hdraw q' with ⟨b, hb, g, hg⟩ | ⟨j, rfl⟩
    · rw [hf, hg]
      rw [ha, hb] at hne
      exact separate_drawWith (fun hab => hne (congrArg InputName.random hab)) f g
    · rw [hf]
      exact separate_drawWith_now a j f
  · rcases hdraw q' with ⟨b, hb, g, hg⟩ | ⟨j, rfl⟩
    · rw [hg]
      exact (separate_drawWith_now b i g).symm
    · exact separate_now fun hij => hne (congrArg InputName.clock hij)

end Sources

end Cadence
