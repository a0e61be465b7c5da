import Cadence.Decimal.Shortest

/-!
# The text of a floating-point number

A number is written with the digits of its shortest decimal. What is left to a format is whether a
number of a given size is written with its point in place or with an exponent, and what follows a
whole number.

## Main definitions

* `NumberFormat` — the choices of a format
* `Decimal.positional`, `Decimal.scientific` — the two layouts
* `NumberFormat.text` — the text of a number
-/

namespace Cadence

/-- How floating-point numbers are written. -/
structure NumberFormat where
  /-- What follows the digits of a whole number in the layout without an exponent. -/
  wholeEnd : String
  /-- Whether a number whose leading digit counts `10 ^ e` is written without an exponent. -/
  positional : Int → Bool

namespace Decimal

/-- The digits of a decimal, without the zeros at their end, and the exponent of the leading one. -/
def significant (d : Decimal) : List Char × Int :=
  let digits := Nat.toDigits 10 d.digits
  ((digits.reverse.dropWhile (· == '0')).reverse, d.exponent + digits.length - 1)

/-- The digits with the point in place: zeros are filled in up to it, on either side. -/
def positional (wholeEnd : String) (digits : List Char) (leading : Int) : String :=
  let before := (leading + 1).toNat
  if leading < 0 then
    "0." ++ String.ofList (List.replicate (-leading - 1).toNat '0' ++ digits)
  else if digits.length ≤ before then
    String.ofList (digits ++ List.replicate (before - digits.length) '0') ++ wholeEnd
  else
    String.ofList (digits.take before) ++ "." ++ String.ofList (digits.drop before)

/-- The digits with the point after the first, followed by the exponent. -/
def scientific (digits : List Char) (leading : Int) : String :=
  let fraction := digits.drop 1
  let tail := if fraction.isEmpty then "" else "." ++ String.ofList fraction
  String.ofList (digits.take 1) ++ tail ++ "e" ++ toString leading

end Decimal

namespace NumberFormat

/-- The text of a positive number. -/
def magnitude (f : NumberFormat) (x : Binary) : String :=
  let (digits, leading) := x.shortest.significant
  if f.positional leading then Decimal.positional f.wholeEnd digits leading
  else Decimal.scientific digits leading

/-- The text of a number: `NaN`, or a sign if it is negative and then `inf` or its digits. -/
def text (f : NumberFormat) (x : Float) : String :=
  let signed : Float.Model.UnpackedFloat.Sign → String → String
    | .negative, body => "-" ++ body
    | .positive, body => body
  match x.toModel.unpack with
  | .notANumber => "NaN"
  | .infinity sign => signed sign "inf"
  | .zero sign => signed sign ("0" ++ f.wholeEnd)
  | .finite sign m e _ => signed sign (f.magnitude ⟨m, e, m == Nat.pow 2 52 && decide (-1074 < e)⟩)

/-- Every number is written without an exponent, and a whole number ends with its last digit. -/
def plain : NumberFormat := ⟨"", fun _ => true⟩

end NumberFormat

end Cadence
