import Cadence.Json.Basic

/-!
# Reading records from JSON

A record has fields with declared names. In JSON it is an object with a member for each field, in
any order, or an array of the fields in the order of their declaration. In an array fields at the
end can be left out; whether a field may be missing is for its reader to say.

A record of several kinds is tagged: a further field, in an array the first one, names its kind.

## Main definitions

* `Json.fields?` — the values of declared fields
* `Json.tagged?` — a kind and the record without it
* `Json.word32?`, `word64?`, `real?`, `flag?`, `list?`, `optional?` — readers of single fields
* `required`, `withDefault` — what a missing field means
-/

namespace Cadence.Json

/-! ### Single fields -/

/-- An integer from 0 to 4294967295. -/
def word32? : Json → Option UInt32
  | number (.integer (.ofNat n)) => if n < 4294967296 then some (UInt32.ofNat n) else none
  | _ => none

/-- An integer from 0 to 18446744073709551615. -/
def word64? : Json → Option UInt64
  | number (.integer (.ofNat n)) => if n < 18446744073709551616 then some (UInt64.ofNat n) else none
  | _ => none

/-- Any number that is not too large for a floating-point number. -/
def real? : Json → Option Float
  | number x => x.float?
  | _ => none

/-- A truth value. -/
def flag? : Json → Option Bool
  | bool b => some b
  | _ => none

/-- An array of items that `read?` reads. -/
def list? {α : Type} (read? : Json → Option α) : Json → Option (List α)
  | array items => items.mapM read?
  | _ => none

/-- A value that `read?` reads, or `null` for none. -/
def optional? {α : Type} (read? : Json → Option α) : Json → Option (Option α)
  | null => some none
  | value => (read? value).map some

/-- A field that must not be missing. -/
def required {α : Type} (read? : Json → Option α) (field : Option Json) : Option α :=
  field.bind read?

/-- A field with a value for when it is missing. -/
def withDefault {α : Type} (value : α) (read? : Json → Option α) : Option Json → Option α
  | none => some value
  | some field => read? field

/-! ### Records -/

/-- The members of a name. -/
def named (name : String) (members : List Member) : List Json :=
  (members.filter fun member => member.1 == some name).map Prod.snd

/-- The value of a name that may be missing but must not be repeated. -/
def single? (name : String) (members : List Member) : Option (Option Json) :=
  match named name members with
  | [] => some none
  | [value] => some (some value)
  | _ => none

/-- The values of the fields with the given names, in that order; a field that is missing has none.
No field may be repeated, and no item of an array may be left over. Other members of an object are
refused unless `others` says they are passed over. -/
def fields? (others : Bool) (names : List String) : Json → Option (List (Option Json))
  | object members =>
    if members.all fun member => member.1.any fun name => others || names.contains name then
      names.mapM fun name => single? name members
    else none
  | array items =>
    if items.length ≤ names.length then
      some (items.map some ++ List.replicate (names.length - items.length) none)
    else none
  | _ => none

/-- The kind of a tagged record, and the record without it. -/
def tagged? (tag : String) : Json → Option (String × Json)
  | object members =>
    match named tag members with
    | [text (some kind)] => some (kind, object (members.filter fun member => member.1 != some tag))
    | _ => none
  | array (text (some kind) :: items) => some (kind, array items)
  | _ => none

end Cadence.Json
