import Mathlib.Data.List.Induction
import Cadence.Proofs.Time.Boundary
import Cadence.Time.ScriptedClock

/-!
# What a scripted clock shows

A clock that follows a script is read, set and moved, in any order. It keeps two things, the rest of
the script and the instant at which it stands, and each use may change both. What it shows can be
said without them: as long as it was only read, a reading is the next instant of the script, or the
last one for ever; once it was set or moved the script is gone, and a reading is the instant to
which it was set or moved.

## Scope

Instants in a leap second are left out: they have no number of nanoseconds of their own, and a move
from one of them does not add to it. A move may be by any number of nanoseconds, of either sign.

A move beyond the last instant ends at the last instant. A move beyond the first one ends at the
last instant as well. So a move is cut off at the ends of the range of time as long as it does not
go back beyond the first instant, and only then.

## Main definitions

* `Instant.moved` — where a move by a number of nanoseconds leads
* `ScriptedClock.Use`, `ScriptedClock.uses` — what is done with a clock, and what it shows
* `ScriptedClock.timeAfter` — the instant at which a clock is to stand after its uses
* `ScriptedClock.TellsTime` — what a clock shows after it was used

## Main results

* `Instant.toNanos_moved`, `Instant.clamped_moved_iff` — when a move is cut off at the ends of time
* `ScriptedClock.current_uses` — a clock stands where it is to stand
* `ScriptedClock.tellsTime` — so it shows what it is to show
* `ScriptedClock.moved_back_to_last` — moved back beyond the first instant, it shows the last one
-/

namespace Cadence

/-! ### Moving an instant -/

namespace Instant

variable {t : Instant} {delta : Int}

/-- The instant `delta` nanoseconds away, or the last one if there is no such instant. -/
def moved (t : Instant) (delta : Int) : Instant := (t.add? delta).getD last

/-- A number of nanoseconds since 1970, cut off at the ends of the range of time. -/
def clamp (n : Int) : Int := max first.toNanos (min n last.toNanos)

theorem toNanos_first : first.toNanos = -8334601228800000000000 := rfl

theorem first_toNanos_le (t : Instant) : first.toNanos ≤ t.toNanos := by
  have hfirst := t.first_le
  rw [toNanos_first, toNanos]
  omega

/-- There is an instant for a number of nanoseconds exactly if it is in the range of time. -/
theorem ofNanos?_eq_none_iff {n : Int} :
    ofNanos? n = none ↔ n < first.toNanos ∨ last.toNanos < n := by
  rw [ofNanos?, toNanos_first, toNanos_last]
  split
  · simp only [reduceCtorEq, false_iff]
    omega
  · simp only [true_iff]
    omega

section OffLeap

variable (ht : ¬ t.IsLeap)
include ht

theorem not_isLeap_moved (delta : Int) : ¬ (t.moved delta).IsLeap := by
  rw [moved, add?_of_not_isLeap ht]
  cases h : ofNanos? (t.toNanos + delta) with
  | some u => exact (toNanos_of_ofNanos? h).2
  | none => decide

/-- Where a move leads: it is cut off at the last instant, and a move back beyond the first instant
leads there too. -/
theorem toNanos_moved (delta : Int) :
    (t.moved delta).toNanos =
      if first.toNanos ≤ t.toNanos + delta then min (t.toNanos + delta) last.toNanos
      else last.toNanos := by
  rw [moved, add?_of_not_isLeap ht]
  cases h : ofNanos? (t.toNanos + delta) with
  | some u =>
    obtain ⟨hu, hleap⟩ := toNanos_of_ofNanos? h
    have hle := toNanos_le_last hleap
    rw [← hu, if_pos u.first_toNanos_le, Int.min_eq_left hle]
    rfl
  | none =>
    show last.toNanos = _
    rcases ofNanos?_eq_none_iff.mp h with hbefore | hbeyond
    · rw [if_neg (Int.not_le.mpr hbefore)]
    · rw [Int.min_eq_right (Int.le_of_lt hbeyond), ite_self]

/-- **A move is cut off at the ends of the range of time** exactly if it does not go back beyond the
first instant. -/
theorem clamped_moved_iff :
    (t.moved delta).toNanos = clamp (t.toNanos + delta) ↔ first.toNanos ≤ t.toNanos + delta := by
  rw [toNanos_moved ht, clamp, toNanos_first, toNanos_last]
  split <;> omega

/-- Back beyond the first instant there is nothing, and a move there leads to the last instant. -/
theorem moved_of_lt_first (h : t.toNanos + delta < first.toNanos) : t.moved delta = last := by
  rw [moved, add?_of_not_isLeap ht, ofNanos?_eq_none_iff.mpr (Or.inl h)]
  rfl

/-- A move forwards does not lead to an earlier instant. -/
theorem le_toNanos_moved (h : 0 ≤ delta) :
    t.toNanos ≤ (t.moved delta).toNanos := by
  have hfirst := t.first_toNanos_le
  have hlast := toNanos_le_last ht
  rw [toNanos_moved ht, if_pos (by omega)]
  omega

/-- A move back does not lead to a later instant, unless it goes beyond the first one. -/
theorem toNanos_moved_le (h : delta ≤ 0) (hfirst : first.toNanos ≤ t.toNanos + delta) :
    (t.moved delta).toNanos ≤ t.toNanos := by
  rw [toNanos_moved ht, if_pos hfirst]
  omega

end OffLeap

end Instant

namespace ScriptedClock

open Instant

/-! ### Using a clock -/

/-- What is done with a clock. -/
inductive Use where
  /-- It is read. -/
  | read
  /-- It is put at an instant. -/
  | set (t : Instant)
  /-- It is moved by a number of nanoseconds. -/
  | advance (delta : Int)
deriving DecidableEq

/-- Whether a clock is only read. -/
def Use.isRead : Use → Bool
  | read => true
  | set _ | advance _ => false

/-- Whether a use puts a clock at no instant in a leap second. -/
def Use.OffLeap : Use → Prop
  | set t => ¬ t.IsLeap
  | _ => True

/-- One use of a clock, which shows an instant if it is read. -/
def use (c : ScriptedClock) : Use → Option Instant × ScriptedClock
  | .read => (some c.read.1, c.read.2)
  | .set t => (none, c.set t)
  | .advance delta => (none, c.advance delta)

/-- Uses of a clock, in order: the instants it shows and the clock after them. -/
def uses (c : ScriptedClock) : List Use → List Instant × ScriptedClock
  | [] => ([], c)
  | u :: rest =>
    let made := c.use u
    let later := made.2.uses rest
    (made.1.toList ++ later.1, later.2)

theorem uses_append (c : ScriptedClock) (us vs : List Use) :
    c.uses (us ++ vs) =
      ((c.uses us).1 ++ ((c.uses us).2.uses vs).1, ((c.uses us).2.uses vs).2) := by
  induction us generalizing c with
  | nil => rfl
  | cons u rest ih => simp only [List.cons_append, uses, ih, List.append_assoc]

theorem all_isRead_concat (us : List Use) (u : Use) :
    (us ++ [u]).all Use.isRead = (us.all Use.isRead && u.isRead) := by
  rw [List.all_append, List.all_cons, List.all_nil, Bool.and_true]

/-! ### Where a clock is to stand -/

/-- Instant `n` of a script, the first being instant zero. After the last one it is the last one
again, and without a script it is the start of 1970. -/
def scripted (script : List Instant) (n : Nat) : Instant :=
  script[n]?.getD (script.getLast?.getD .epoch)

/-- Where a clock is to stand after its uses, which are listed from the last one back: at the
instant that it has shown, or to which it was set or moved. A reading shows an instant of the script
if the clock was only read before, and else where the clock stands. -/
def standing (script : List Instant) : List Use → Instant
  | [] => scripted script 0
  | .read :: before =>
    if before.all Use.isRead then scripted script before.length else standing script before
  | .set t :: _ => t
  | .advance delta :: before => (standing script before).moved delta

/-- Where a clock is to stand after its uses, in order. -/
def timeAfter (script : List Instant) (us : List Use) : Instant := standing script us.reverse

section TimeAfter

variable (script : List Instant) (us : List Use)

@[simp] theorem timeAfter_nil : timeAfter script [] = scripted script 0 := rfl

@[simp] theorem timeAfter_set (t : Instant) : timeAfter script (us ++ [.set t]) = t := by
  rw [timeAfter, List.reverse_append]
  rfl

@[simp] theorem timeAfter_advance (delta : Int) :
    timeAfter script (us ++ [.advance delta]) = (timeAfter script us).moved delta := by
  rw [timeAfter, List.reverse_append]
  rfl

theorem timeAfter_read :
    timeAfter script (us ++ [.read]) =
      if us.all Use.isRead then scripted script us.length else timeAfter script us := by
  rw [timeAfter, List.reverse_append, ← List.all_reverse, ← List.length_reverse]
  rfl

end TimeAfter

/-! ### Where it stands -/

variable {script : List Instant} {us : List Use}

/-- Beyond its end a script stays at its last instant. -/
theorem scripted_of_length_le {n : Nat} (h : script.length ≤ n) :
    scripted script n = scripted script (n - 1) := by
  rw [scripted, scripted, List.getElem?_eq_none h]
  rcases Nat.lt_or_ge (n - 1) script.length with hlast | hbeyond
  · obtain hn : n - 1 = script.length - 1 := by omega
    rw [hn, List.getLast?_eq_getElem?, List.getElem?_eq_getElem (by omega)]
    rfl
  · rw [List.getElem?_eq_none hbeyond]

/-- A clock that was only read stands at the instant that it has shown last, or at the first one. -/
theorem timeAfter_of_all_read (h : us.all Use.isRead = true) :
    timeAfter script us = scripted script (us.length - 1) := by
  rcases List.eq_nil_or_concat us with rfl | ⟨before, u, rfl⟩
  · rfl
  · rw [List.concat_eq_append, List.all_append, Bool.and_eq_true] at h
    obtain ⟨hbefore, hu⟩ := h
    cases u with
    | read => rw [List.concat_eq_append, timeAfter_read, if_pos hbefore, List.length_append]; rfl
    | set t => exact nomatch hu
    | advance delta => exact nomatch hu

/-- A clock as it is to be after its uses: if it was only read, the instants that it has not shown
are still to be shown, and else none is. -/
def after (script : List Instant) (us : List Use) : ScriptedClock where
  pending := if us.all Use.isRead then script.drop us.length else []
  current := timeAfter script us

theorem after_nil (script : List Instant) : after script [] = ofScript script := by
  cases script with
  | nil => rfl
  | cons t rest => rfl

/-- One more reading. -/
theorem read_after (script : List Instant) (us : List Use) :
    (after script us).read = (timeAfter script (us ++ [.read]), after script (us ++ [.read])) := by
  rw [after, after, all_isRead_concat, timeAfter_read, List.length_append, Use.isRead,
    Bool.and_true]
  cases h : us.all Use.isRead with
  | false => rfl
  | true =>
    cases hrest : script.drop us.length with
    | nil =>
      -- the script has come to its end, so the clock stands at its last instant already
      have hlength : script.length ≤ us.length := List.drop_eq_nil_iff.mp hrest
      have hnext : script.drop (us.length + 1) = [] := List.drop_eq_nil_iff.mpr (by omega)
      rw [timeAfter_of_all_read h, ← scripted_of_length_le hlength]
      simp only [read, if_true, List.length_singleton, hnext]
    | cons t rest =>
      have ht : scripted script us.length = t := by
        rw [scripted, ← List.head?_drop, hrest]
        rfl
      have hnext : script.drop (us.length + 1) = rest := by
        rw [← List.tail_drop, hrest]
        rfl
      simp only [read, if_true, List.length_singleton, hnext, ht]

/-- One more use. -/
theorem use_after (script : List Instant) (us : List Use) (u : Use) :
    ((after script us).use u).2 = after script (us ++ [u]) := by
  cases u with
  | read => exact congrArg Prod.snd (read_after script us)
  | set t =>
    show (⟨[], t⟩ : ScriptedClock) = _
    rw [after, timeAfter_set, all_isRead_concat, Use.isRead, Bool.and_false]
    rfl
  | advance delta =>
    show (⟨[], (timeAfter script us).moved delta⟩ : ScriptedClock) = _
    rw [after, timeAfter_advance, all_isRead_concat, Use.isRead, Bool.and_false]
    rfl

/-- **A clock is as it is to be**, however it was used. -/
theorem uses_eq_after (script : List Instant) (us : List Use) :
    ((ofScript script).uses us).2 = after script us := by
  induction us using List.reverseRecOn with
  | nil => exact (after_nil script).symm
  | append_singleton us u ih =>
    rw [uses_append, ih]
    exact use_after script us u

/-! ### What it shows -/

/-- A clock that is read once more shows one instant more. -/
theorem uses_concat_read (script : List Instant) (us : List Use) :
    ((ofScript script).uses (us ++ [.read])).1 =
      ((ofScript script).uses us).1 ++ [timeAfter script (us ++ [.read])] := by
  rw [uses_append, uses_eq_after]
  exact congrArg (fun t => _ ++ [t]) (congrArg Prod.fst (read_after script us))

/-- A clock that is set or moved shows nothing. -/
theorem uses_concat_move (script : List Instant) {u : Use} (hu : u.isRead = false) (us : List Use) :
    ((ofScript script).uses (us ++ [u])).1 = ((ofScript script).uses us).1 := by
  rw [uses_append]
  cases u with
  | read => exact nomatch hu
  | set t => exact List.append_nil _
  | advance delta => exact List.append_nil _

/-- A clock whose script is a single instant shows what a clock shows that stands there and has no
script. -/
theorem uses_ofScript_singleton (t : Instant) (later : List Use) :
    ((⟨[], t⟩ : ScriptedClock).uses later).1 = ((ofScript [t]).uses later).1 := by
  cases later with
  | nil => rfl
  | cons u rest =>
    cases u with
    | read => rfl
    | set t' => rfl
    | advance delta => rfl

/-- Once a clock was set or moved, it shows what a clock shows that was stopped there. -/
theorem uses_append_move (script : List Instant) {u : Use} (hu : u.isRead = false)
    (us later : List Use) :
    ((ofScript script).uses (us ++ u :: later)).1 =
      ((ofScript script).uses us).1 ++
        ((ofScript [timeAfter script (us ++ [u])]).uses later).1 := by
  have hafter : after script (us ++ [u]) = ⟨[], timeAfter script (us ++ [u])⟩ := by
    rw [after, all_isRead_concat, hu, Bool.and_false]
    rfl
  rw [List.append_cons, uses_append, uses_concat_move script hu, uses_eq_after, hafter]
  exact congrArg _ (uses_ofScript_singleton _ later)

/-- As long as a clock is only read, it shows its script in order and then its last instant. -/
theorem uses_of_all_read (h : us.all Use.isRead = true) :
    ((ofScript script).uses us).1 = (List.range us.length).map (scripted script) := by
  induction us using List.reverseRecOn with
  | nil => rfl
  | append_singleton us u ih =>
    rw [all_isRead_concat, Bool.and_eq_true] at h
    obtain ⟨hbefore, hu⟩ := h
    cases u with
    | read =>
      rw [uses_concat_read, ih hbefore, timeAfter_read, if_pos hbefore, List.length_append,
        List.length_singleton, List.range_succ, List.map_append]
      rfl
    | set t => exact nomatch hu
    | advance delta => exact nomatch hu

theorem not_isLeap_scripted (h : ∀ t ∈ script, ¬ t.IsLeap) (n : Nat) :
    ¬ (scripted script n).IsLeap := by
  have hlast : ¬ (script.getLast?.getD epoch).IsLeap := by
    cases hlast : script.getLast? with
    | none => decide
    | some t => exact h t (List.mem_of_getLast? hlast)
  rw [scripted]
  cases hn : script[n]? with
  | none => exact hlast
  | some t => exact h t (List.mem_of_getElem? hn)

/-- A clock stands in a leap second only if its script or a use of it has put it there. -/
theorem not_isLeap_timeAfter (hscript : ∀ t ∈ script, ¬ t.IsLeap) (hus : ∀ u ∈ us, u.OffLeap) :
    ¬ (timeAfter script us).IsLeap := by
  induction us using List.reverseRecOn with
  | nil => exact not_isLeap_scripted hscript 0
  | append_singleton us u ih =>
    have hbefore := ih fun u hu => hus u (List.mem_append_left _ hu)
    have hu := hus u (List.mem_append_right _ (List.mem_singleton_self u))
    cases u with
    | read =>
      rw [timeAfter_read]
      split
      · exact not_isLeap_scripted hscript us.length
      · exact hbefore
    | set t => rwa [timeAfter_set]
    | advance delta =>
      rw [timeAfter_advance]
      exact Instant.not_isLeap_moved hbefore delta

/-- What a clock with a script shows when it is used. -/
structure TellsTime (script : List Instant) (us : List Use) : Prop where
  /-- It stands at the instant that it has shown last, or to which it was set or moved since. -/
  current : ((ofScript script).uses us).2.current = timeAfter script us
  /-- If it was only read, it has shown its script in order and then the last instant of it. -/
  replay : us.all Use.isRead = true →
    ((ofScript script).uses us).1 = (List.range us.length).map (scripted script)
  /-- If it is read now, it shows an instant more: the next one of its script if it was only read,
  and else the one at which it stands. -/
  read : ((ofScript script).uses (us ++ [.read])).1 = ((ofScript script).uses us).1 ++
    [if us.all Use.isRead then scripted script us.length else timeAfter script us]
  /-- If it is moved now and then read, it shows where the move leads. -/
  advance : ∀ delta, ((ofScript script).uses (us ++ [.advance delta, .read])).1 =
    ((ofScript script).uses us).1 ++ [(timeAfter script us).moved delta]
  /-- That is the instant so many nanoseconds away, cut off at the ends of the range of time,
  exactly if it is not before the first instant. -/
  clamped_iff : ∀ delta, ((timeAfter script us).moved delta).toNanos =
    clamp ((timeAfter script us).toNanos + delta) ↔
      first.toNanos ≤ (timeAfter script us).toNanos + delta
  /-- A move back beyond the first instant leads to the last one. -/
  beyond : ∀ delta, (timeAfter script us).toNanos + delta < first.toNanos →
    (timeAfter script us).moved delta = last
  /-- A move forwards does not lead to an earlier instant. -/
  forwards : ∀ delta, 0 ≤ delta →
    (timeAfter script us).toNanos ≤ ((timeAfter script us).moved delta).toNanos
  /-- A move back that does not go beyond the first instant does not lead to a later one. -/
  backwards : ∀ delta, delta ≤ 0 → first.toNanos ≤ (timeAfter script us).toNanos + delta →
    ((timeAfter script us).moved delta).toNanos ≤ (timeAfter script us).toNanos
  /-- If it is set or moved now, it shows from then on what a clock shows that was stopped there,
  and nothing of its script. -/
  stopped : ∀ u : Use, u.isRead = false → ∀ later,
    ((ofScript script).uses (us ++ u :: later)).1 = ((ofScript script).uses us).1 ++
      ((ofScript [timeAfter script (us ++ [u])]).uses later).1

/-- **What a scripted clock shows**, however it is used: its script in order and then the last
instant of it, as long as it is only read, and nothing of it once it was set or moved. A move leads
to the instant so many nanoseconds away, cut off at the last instant; but a move back beyond the
first instant leads to the last one. -/
theorem tellsTime (script : List Instant) (us : List Use) (hscript : ∀ t ∈ script, ¬ t.IsLeap)
    (hus : ∀ u ∈ us, u.OffLeap) : TellsTime script us where
  current := congrArg ScriptedClock.current (uses_eq_after script us)
  replay := uses_of_all_read
  read := by rw [uses_concat_read, timeAfter_read]
  advance delta := by
    have hmoved : (us ++ [Use.advance delta]).all Use.isRead = false := by
      rw [all_isRead_concat, Use.isRead, Bool.and_false]
    rw [List.append_cons, uses_concat_read, uses_concat_move script rfl, timeAfter_read, hmoved,
      timeAfter_advance]
    rfl
  clamped_iff _ := Instant.clamped_moved_iff (not_isLeap_timeAfter hscript hus)
  beyond _ := Instant.moved_of_lt_first (not_isLeap_timeAfter hscript hus)
  forwards _ := Instant.le_toNanos_moved (not_isLeap_timeAfter hscript hus)
  backwards _ := Instant.toNanos_moved_le (not_isLeap_timeAfter hscript hus)
  stopped _ hu := uses_append_move script hu us

/-- A clock with two instants in its script is read, moved back and forth, and read again. -/
theorem tellsTime_movedBack :
    let noon : Instant := ⟨1704283200, 0, by decide, by decide, by decide⟩
    let later : Instant := ⟨1704283210, 0, by decide, by decide, by decide⟩
    let us : List Use := [.read, .advance (-5000000000), .read, .advance 1]
    (∀ t ∈ [noon, later], ¬ t.IsLeap) ∧ (∀ u ∈ us, u.OffLeap) ∧
      ((ofScript [noon, later]).uses (us ++ [.read])).1.map Instant.toNanos =
        [1704283200000000000, 1704283195000000000, 1704283195000000001] := by
  intro noon later us
  have hscript : ∀ t ∈ [noon, later], ¬ t.IsLeap := by decide
  have hus : ∀ u ∈ us, u.OffLeap := by simp [us, Use.OffLeap]
  refine ⟨hscript, hus, ?_⟩
  rw [(tellsTime [noon, later] us hscript hus).read]
  decide

/-- **A clock that is moved back beyond the first instant** shows the last one: the move is not cut
off where time begins, and leads forwards. -/
theorem moved_back_to_last :
    let delta := -8334601228801000000000
    ((ofScript [epoch]).uses [.read, .advance delta, .read]).1 = [epoch, last] ∧
      clamp (epoch.toNanos + delta) = first.toNanos ∧ delta < 0 ∧
      epoch.toNanos < last.toNanos ∧ last.toNanos ≠ first.toNanos := by
  decide

end ScriptedClock

end Cadence
