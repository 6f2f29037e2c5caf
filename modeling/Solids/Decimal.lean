/-!
# Solids.Decimal

**Doubles as exact numbers, and their decimal digits.**

A double is decoded into the integers it stands for, `significand · 2 ^ exponent`,
and all that follows is arithmetic on natural numbers, without rounding.

Main definitions:

* `Magnitude.ofFloat` — what a double stands for;
* `Magnitude.shortest` — the fewest decimal digits that no other double is
  nearer to, and of those the nearest;
* `roundDiv` — a quotient rounded to the nearest integer, a half to the even one.

Design points:

* A decimal reads back as a double when it lies in that double's *interval*: the
  numbers nearer to it than to its neighbours, the ends included when the
  significand is even.
* With `k` digits only the two neighbours of a number on the grid of `k`-digit
  decimals need a test: if any point of the grid is in the interval, so is one of
  them.
-/

namespace Solids

/-! ### Doubles -/

/-- The number `significand · 2 ^ exponent`. -/
structure Magnitude where
  /-- The integer factor. -/
  significand : Nat
  /-- The power of two. -/
  exponent : Int
  deriving DecidableEq, Repr

/-- What a double stands for. -/
inductive Reading where
  /-- No number, with its sign bit. -/
  | nan (negative : Bool)
  /-- An infinity. -/
  | infinite (negative : Bool)
  /-- A number, zero included, with its sign. -/
  | finite (negative : Bool) (magnitude : Magnitude)
  deriving DecidableEq, Repr

/-- The parts of a double's 64 bits: the sign, eleven bits of exponent and 52 of
fraction. -/
def Reading.ofBits (bits : Nat) : Reading :=
  let negative := bits / Nat.pow 2 63 % 2 == 1
  let biased : Nat := bits / Nat.pow 2 52 % Nat.pow 2 11
  let fraction := bits % Nat.pow 2 52
  if biased = 2047 then
    if fraction = 0 then .infinite negative else .nan negative
  else if biased = 0 then .finite negative ⟨fraction, -1074⟩
  else .finite negative ⟨Nat.pow 2 52 + fraction, (biased : Int) - 1075⟩

/-- What a double stands for. -/
def Reading.ofFloat (x : Float) : Reading := .ofBits x.toBits.toNat

/-! ### Rounding a quotient -/

/-- The integer nearest to `num / den`, the even one if two are equally near. -/
def roundDiv (num den : Nat) : Nat :=
  let floor := num / den
  let rest := 2 * (num % den)
  if rest < den then floor
  else if den < rest then floor + 1
  else if floor % 2 = 0 then floor else floor + 1

/-! ### Decimals -/

/-- The number `digits · 10 ^ exponent`. -/
structure Decimal where
  /-- The digits, read as one integer. -/
  digits : Nat
  /-- The power of ten of the last digit. -/
  exponent : Int
  deriving DecidableEq, Repr

namespace Decimal

/-- Takes zeros off the end of the digits, at most `count` of them. -/
def dropZeros : Nat → Decimal → Decimal
  | 0, d => d
  | count + 1, d =>
    if d.digits ≠ 0 ∧ d.digits % 10 = 0 then dropZeros count ⟨d.digits / 10, d.exponent + 1⟩ else d

/-- The digits, the first one first. -/
def chars (d : Decimal) : List Char := Nat.toDigits 10 d.digits

/-- The power of ten of the first digit. -/
def leadingExponent (d : Decimal) : Int := d.exponent + (d.chars.length : Int) - 1

end Decimal

/-- Which of two equally near decimals is taken. -/
inductive Tie where
  /-- The one whose last digit is even. -/
  | even
  /-- The larger one. -/
  | up
  deriving DecidableEq, Repr

/-- A number and the interval around it, as fractions with one denominator. -/
structure Interval where
  /-- The numerator of the number. -/
  value : Nat
  /-- The numerator of the lower end. -/
  lower : Nat
  /-- The numerator of the upper end. -/
  upper : Nat
  /-- The denominator of all three. -/
  den : Nat
  /-- The ends belong to the interval. -/
  closed : Bool

namespace Interval

/-- The fraction `num / den` is in the interval. -/
def contains (i : Interval) (num den : Nat) : Bool :=
  if i.closed then i.lower * den ≤ num * i.den && num * i.den ≤ i.upper * den
  else i.lower * den < num * i.den && num * i.den < i.upper * den

/-- The power of ten of the first digit of the number: the `e` with
`10 ^ e ≤ value < 10 ^ (e + 1)`. An estimate from the binary lengths is off by at
most one. -/
def leadingExponent (i : Interval) : Int :=
  let estimate := ((i.value.log2 : Int) - (i.den.log2 : Int) - 1) * 30103 / 100000
  let atLeast (e : Int) : Bool := i.den * Nat.pow 10 e.toNat ≤ i.value * Nat.pow 10 (-e).toNat
  if atLeast (estimate + 1) then estimate + 1
  else if atLeast estimate then estimate
  else estimate - 1

/-- Of the decimals with the last digit at `exponent`, the one in the interval
that is nearest to the number. -/
def nearest? (tie : Tie) (i : Interval) (exponent : Int) : Option Decimal :=
  let up := Nat.pow 10 exponent.toNat
  let down := Nat.pow 10 (-exponent).toNat
  let num := i.value * down
  let den := i.den * up
  let floor := num / den
  let rest := 2 * (num % den)
  let below := i.contains (floor * up) down
  let above := i.contains ((floor + 1) * up) down
  let takeAbove :=
    if below && above then
      if rest < den then false
      else if den < rest then true
      else match tie with
        | .even => floor % 2 = 1
        | .up => true
    else above
  if takeAbove then some ⟨floor + 1, exponent⟩
  else if below then some ⟨floor, exponent⟩
  else none

end Interval

namespace Magnitude

/-- The numbers nearer to a double than to its neighbours. The neighbour below a
power of two is only half as far away as the one above, unless the exponent is
the least one. -/
def interval (m : Magnitude) : Interval :=
  let below := if m.significand = Nat.pow 2 52 ∧ -1074 < m.exponent then 1 else 2
  let up := Nat.pow 2 (m.exponent - 2).toNat
  { value := 4 * m.significand * up
    lower := (4 * m.significand - below) * up
    upper := (4 * m.significand + 2) * up
    den := Nat.pow 2 (2 - m.exponent).toNat
    closed := m.significand % 2 = 0 }

/-- The fewest digits that read back as this double, and of those the nearest. Up
to 17 digits are tried; they always suffice. -/
def shortest (tie : Tie) (m : Magnitude) : Decimal :=
  if m.significand = 0 then ⟨0, 0⟩
  else
    let i := m.interval
    let e := i.leadingExponent
    match (List.range 17).findSome? fun k : Nat => i.nearest? tie (e - (k : Int)) with
    | some d => d.dropZeros 17
    | none => ⟨roundDiv i.value i.den, 0⟩

/-- The number as a natural number, if it is one. -/
def natural? (m : Magnitude) : Option Nat :=
  let den := Nat.pow 2 (-m.exponent).toNat
  if m.significand % den = 0 then some (m.significand / den * Nat.pow 2 m.exponent.toNat) else none

/-- The number of units of `10 ^ -places` nearest to the number, a half to the
even one. -/
def roundPlaces (places : Nat) (m : Magnitude) : Nat :=
  roundDiv (m.significand * Nat.pow 2 m.exponent.toNat * Nat.pow 10 places)
    (Nat.pow 2 (-m.exponent).toNat)

end Magnitude

/-- The natural number that a double is, if it is one. Both zeros are. -/
def Reading.natural? : Reading → Option Nat
  | .finite negative m => if negative && m.significand ≠ 0 then none else m.natural?
  | _ => none

end Solids
