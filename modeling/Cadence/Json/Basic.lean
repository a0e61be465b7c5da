/-!
# JSON values

The values of JSON as they are read: no text or number is refused for what it stands for until
somebody wants to use it.

## Main definitions

* `Number` — an integer as it is written, or a floating-point number
* `Json` — the values
* `Json.fits` — whether a value can be held on to as a whole
-/

namespace Cadence

/-- A JSON number. -/
inductive Number where
  /-- A number that is written without a point and without an exponent. -/
  | integer (n : Int)
  /-- Any other number, as the floating-point number that it was read as. One that is too large to
  be finite is infinite. -/
  | decimal (x : Float)

/-- The nearest floating-point number, unless the number is too large to have one. -/
def Number.float? (x : Number) : Option Float :=
  let nearest := match x with
    | integer n => Float.ofInt n
    | decimal x => x
  if nearest.isFinite then some nearest else none

/-- A JSON value. A text can be written with one half of a surrogate pair on its own, which stands
for no character; such a text is `none`. The members of an object are kept in order, and two of them
may have the same name. -/
inductive Json where
  | null
  | bool (b : Bool)
  | number (x : Number)
  | text (t : Option String)
  | array (items : List Json)
  | object (members : List (Option String × Json))

namespace Json

instance : Inhabited Json := ⟨null⟩

/-- A member of an object: its name and its value. -/
abbrev Member : Type := Option String × Json

mutual

/-- Whether a value consists of texts and of numbers in the range of floating-point numbers, with at
most `levels` arrays and objects inside each other. -/
def fits (levels : Nat) : Json → Bool
  | null => true
  | bool _ => true
  | number x => x.float?.isSome
  | text t => t.isSome
  | array items => decide (0 < levels) && fitsItems (levels - 1) items
  | object members => decide (0 < levels) && fitsMembers (levels - 1) members

/-- Whether all items of an array fit. -/
def fitsItems (levels : Nat) : List Json → Bool
  | [] => true
  | item :: items => item.fits levels && fitsItems levels items

/-- Whether all members of an object fit. -/
def fitsMembers (levels : Nat) : List Member → Bool
  | [] => true
  | (name, value) :: members => name.isSome && value.fits levels && fitsMembers levels members

end

end Json

end Cadence
