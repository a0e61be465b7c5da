/-!
# Tables

A table holds a value for every natural number, all but finitely many of them the default value.

## Main definitions

* `Table.get`, `Table.set` — reading and writing the value of a number
* `Table.add` — writing a value at a number that was not written before

## Main results

* `Table.get_set` — a write changes the value of its number and no other
-/

namespace Cadence

/-- A value for every natural number. -/
structure Table (α : Type) where
  /-- The values of the first numbers. Those of all others are the default value. -/
  entries : Array α

namespace Table

variable {α : Type} [Inhabited α]

/-- The value of `i`. -/
def get (t : Table α) (i : Nat) : α := t.entries.getD i default

/-- The table with the value of `i` replaced by `x`. -/
def set (t : Table α) (i : Nat) (x : α) : Table α :=
  if h : i < t.entries.size then ⟨t.entries.set i x⟩
  else ⟨(t.entries ++ Array.replicate (i - t.entries.size) default).push x⟩

/-- The table with a further value, and the number it was given. -/
def add (t : Table α) (x : α) : Nat × Table α := (t.entries.size, ⟨t.entries.push x⟩)

theorem get_set (t : Table α) (i j : Nat) (x : α) :
    (t.set i x).get j = if j = i then x else t.get j := by
  unfold set get
  split
  · rename_i h
    simp only [Array.getD_eq_getD_getElem?, Array.getElem?_set]
    split <;> rename_i hij
    · simp [hij]
    · simp [Ne.symm hij]
  · rename_i h
    simp only [Array.getD_eq_getD_getElem?, Array.getElem?_push, Array.size_append,
      Array.size_replicate, Array.getElem?_append, Array.getElem?_replicate]
    grind

@[simp] theorem get_set_self (t : Table α) (i : Nat) (x : α) : (t.set i x).get i = x := by
  simp [get_set]

theorem get_set_of_ne (t : Table α) {i j : Nat} (x : α) (h : j ≠ i) :
    (t.set i x).get j = t.get j := by
  simp [get_set, h]

end Table

end Cadence
