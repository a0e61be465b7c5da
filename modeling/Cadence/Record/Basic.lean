import Cadence.Decimal.Layout

/-!
# Values as records

The text that shows a value with its parts: the name of its kind, followed by its fields in braces
or its single part in parentheses. This module has the layout; the modules beside it have the
values.

## Main definitions

* `Record.fields`, `Record.openFields` — a name with all of its fields, or with some of them
* `Record.wrap`, `Record.list`, `Record.quote`, `Record.option` — the other shapes
* `Record.number` — how a floating-point field is written
-/

namespace Cadence.Record

/-- The fields of a record, each with its value, separated by commas. -/
def entries (fields : List (String × String)) : String :=
  ", ".intercalate (fields.map fun (name, value) => name ++ ": " ++ value)

/-- A name and all of its fields, or only the name if it has none. -/
def fields (name : String) : List (String × String) → String
  | [] => name
  | fs => name ++ " \x7b " ++ entries fs ++ " \x7d"

/-- A name and some of its fields; two points stand for the rest. -/
def openFields (name : String) (fs : List (String × String)) : String :=
  name ++ " \x7b " ++ entries fs ++ ", .. \x7d"

/-- A name around a single value. -/
def wrap (name value : String) : String := name ++ "(" ++ value ++ ")"

/-- A value that may be missing. -/
def option : Option String → String
  | none => "None"
  | some value => wrap "Some" value

/-- The members of a list in brackets. -/
def list (members : List String) : String := "[" ++ ", ".intercalate members ++ "]"

/-- A text in quotation marks. It must hold neither quotation marks nor backslashes. -/
def quote (text : String) : String := "\"" ++ text ++ "\""

/-- A truth value. -/
def bool (b : Bool) : String := if b then "true" else "false"

/-- Floating-point fields: a whole number ends in `.0`, and a number below `10 ^ -4` or from
`10 ^ 16` on is written with an exponent. -/
def number : NumberFormat := ⟨".0", fun e => decide (-4 ≤ e) && decide (e < 16)⟩

end Cadence.Record
