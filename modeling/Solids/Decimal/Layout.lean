import Solids.Decimal
/-!
# Solids.Decimal.Layout

**How numbers are written.** A `Layout` holds every decision about the text of a
double that its digits leave open; the program writes numbers in three of them:

* `Layout.plain` in messages and model files: positional, whatever the size;
* `Layout.explicit` for the numbers listed in messages: always recognisable as a
  fraction, with an exponent when very large or small;
* `Layout.json` in JSON.

`fixed` writes a given number of decimal places instead of the fewest digits.
-/

namespace Solids

/-- What is decided about the text of a number beside its digits. -/
structure Layout where
  /-- Which of two equally near decimals is written. -/
  tie : Tie
  /-- Numbers whose first digit has one of these powers of ten are written without
  an exponent. -/
  positional : Int → Bool
  /-- A whole number written without an exponent still gets a point and a zero. -/
  showsPoint : Bool
  /-- A positive exponent gets a plus sign. -/
  showsPlus : Bool

namespace Layout

/-- Shortest digits, never an exponent, no point after a whole number. -/
def plain : Layout := ⟨.up, fun _ => true, false, false⟩

/-- Shortest digits, a point in every number without exponent, and an exponent
from `10 ^ 16` and below `10 ^ -4`. -/
def explicit : Layout := ⟨.up, fun e => -4 ≤ e && e < 16, true, false⟩

/-- Shortest digits, a point in every number without exponent, and an exponent,
signed either way, from `10 ^ 16` and below `10 ^ -5`. -/
def json : Layout := ⟨.even, fun e => -5 ≤ e && e < 16, true, true⟩

end Layout

namespace Decimal

/-- The digits with the point at its place: zeros fill the gap between the digits
and the point on either side. -/
def positional (showsPoint : Bool) (d : Decimal) : String :=
  let digits := d.chars
  let whole := d.leadingExponent + 1
  if whole ≤ 0 then
    "0." ++ String.ofList (List.replicate (-whole).toNat '0' ++ digits)
  else if digits.length ≤ whole.toNat then
    String.ofList (digits ++ List.replicate (whole.toNat - digits.length) '0')
      ++ (if showsPoint then ".0" else "")
  else
    String.ofList (digits.take whole.toNat) ++ "." ++ String.ofList (digits.drop whole.toNat)

/-- The first digit, a point, the others, and the power of ten. -/
def scientific (showsPlus : Bool) (d : Decimal) : String :=
  let e := d.leadingExponent
  let mantissa := match d.chars with
    | [] => "0"
    | [digit] => String.singleton digit
    | digit :: others => String.singleton digit ++ "." ++ String.ofList others
  mantissa ++ "e" ++ (if showsPlus && 0 ≤ e then "+" else "") ++ toString e

/-- The text of a decimal in a layout. -/
def text (layout : Layout) (d : Decimal) : String :=
  if layout.positional d.leadingExponent then d.positional layout.showsPoint
  else d.scientific layout.showsPlus

end Decimal

/-- The sign of a number in front of its magnitude. -/
def signText (negative : Bool) : String := if negative then "-" else ""

/-- The text of a double in a layout. No layout shows the sign of a NaN. -/
def Layout.text (layout : Layout) : Reading → String
  | .nan _ => "NaN"
  | .infinite negative => signText negative ++ "inf"
  | .finite negative m => signText negative ++ (m.shortest layout.tie).text layout

/-- The decimal text of a natural number, with zeros in front to make it at least
`width` digits long. -/
def padded (width n : Nat) : String :=
  let digits := Nat.toDigits 10 n
  String.ofList (List.replicate (width - digits.length) '0' ++ digits)

/-- The text of a double rounded to `places` decimal places. A number that rounds
to zero keeps its sign. -/
def fixed (places : Nat) : Reading → String
  | .nan _ => "NaN"
  | .infinite negative => signText negative ++ "inf"
  | .finite negative m =>
    let units := m.roundPlaces places
    let one := Nat.pow 10 places
    signText negative ++ padded 1 (units / one) ++ "." ++ padded places (units % one)

end Solids
