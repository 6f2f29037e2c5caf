import Solids.Json
/-!
# Solids.Json.NumberReader

**Reading numbers**, one character at a time.

The digits of a number go into one integer, the *significand*, as long as it fits
into 64 bits. A number without a point or exponent whose digits all fit is read
exactly. Any other number becomes the double of its significand times a power of
ten, which need not be the double nearest to it:

* digits before the point that no longer fit are dropped, and each raises the
  power by one;
* digits after the point each lower the power by one, and are dropped without
  effect once they no longer fit;
* multiplying and dividing are done in doubles, with tabulated powers up to
  `10 ^ 308`.
-/

namespace Solids.Json

/-- A number in progress. The `scale` is the power of ten that its digits so far
are to be multiplied by. -/
inductive NumberState where
  /-- A minus sign. -/
  | minus
  /-- A zero as the first digit. -/
  | zero (negative : Bool)
  /-- Digits before the point. -/
  | whole (negative : Bool) (significand : Nat)
  /-- Digits before the point of which the last no longer fit. -/
  | long (negative : Bool) (significand : Nat) (scale : Int)
  /-- The point. -/
  | point (negative : Bool) (significand : Nat) (scale : Int)
  /-- Digits after the point. -/
  | fraction (negative : Bool) (significand : Nat) (scale : Int)
  /-- Digits after the point that no longer fit. -/
  | spill (negative : Bool) (significand : Nat) (scale : Int)
  /-- The letter of the exponent. -/
  | letter (negative : Bool) (significand : Nat) (scale : Int)
  /-- The sign of the exponent. -/
  | sign (negative : Bool) (significand : Nat) (scale : Int) (down : Bool)
  /-- Digits of the exponent. -/
  | power (negative : Bool) (significand : Nat) (scale : Int) (down : Bool) (exponent : Nat)
  /-- An exponent so long that the number can only be zero. -/
  | vanished (negative : Bool)

/-- The value of a digit. -/
def digit? (c : Char) : Option Nat :=
  if '0' ≤ c ∧ c ≤ '9' then some (c.toNat - '0'.toNat) else none

/-- The significand with one more digit, if it still fits into 64 bits. -/
def pushDigit? (significand digit : Nat) : Option Nat :=
  let next := significand * 10 + digit
  if next < Nat.pow 2 64 then some next else none

/-- The largest power that the digits of an exponent are read up to. -/
def exponentLimit : Nat := 2147483647

/-- The double nearest to a power of ten up to `10 ^ 308`. -/
def powerOfTen (n : Nat) : Float := Float.ofScientific 1 false n

/-- A double divided by a power of ten, by `10 ^ 308` at a time. -/
def divideByPower (x : Float) (power : Nat) : Float :=
  if power ≤ 308 then x / powerOfTen power
  else if Float.beq x 0 then x
  else divideByPower (x / powerOfTen 308) (power - 308)
termination_by power

/-- A significand times a power of ten, unless that is too large. -/
def scaled? (significand : Nat) (scale : Int) : Option Float :=
  let x := significand.toUInt64.toFloat
  if scale < 0 then some (divideByPower x scale.natAbs)
  else if scale ≤ 308 then
    let y := x * powerOfTen scale.toNat
    if y.isFinite then some y else none
  else if significand = 0 then some x
  else none

/-- The double with a sign, as a number. -/
def signed? (negative : Bool) (x : Float) : Option Number :=
  let y := if negative then -x else x
  if h : y.isFinite = true then some (.real y h) else none

theorem ofInt_neg_lt_zero {n : Nat} (h : 0 < n ∧ n ≤ Nat.pow 2 63) :
    Int64.ofInt (-(n : Int)) < 0 := by
  obtain ⟨hpos, hle⟩ := h
  have hpow : Nat.pow 2 63 = 9223372036854775808 := rfl
  rw [Int64.lt_iff_toInt_lt, Int64.toInt_ofInt_of_le (by omega) (by omega), Int64.toInt_zero]
  omega

/-- The number of digits alone. A negative zero and negative integers below the
range of 64 bits are doubles. -/
def integer? (negative : Bool) (significand : Nat) : Option Number :=
  if !negative then some (.natural significand.toUInt64)
  else if h : 0 < significand ∧ significand ≤ Nat.pow 2 63 then
    some (.negative (Int64.ofInt (-(significand : Int))) (ofInt_neg_lt_zero h))
  else signed? true significand.toUInt64.toFloat

/-- The number of a significand and a scale. -/
def fractional? (negative : Bool) (significand : Nat) (scale : Int) : Option Number :=
  (scaled? significand scale).bind (signed? negative)

namespace NumberState

/-- A further character of a number. -/
inductive Step where
  /-- The number goes on. -/
  | next (state : NumberState)
  /-- The character is not part of the number, which ends before it. -/
  | ends
  /-- No number goes on like this. -/
  | invalid
  /-- The exponent makes the number too large. -/
  | tooLarge

/-- The first character of a number. -/
def begin? (c : Char) : Option NumberState :=
  if c = '-' then some .minus
  else (digit? c).map fun d => if d = 0 then .zero false else .whole false d

/-- What may follow the digits of a number: an exponent, or its end. -/
def exponentOrEnd (negative : Bool) (significand : Nat) (scale : Int) (c : Char) : Step :=
  if c = 'e' ∨ c = 'E' then .next (.letter negative significand scale) else .ends

/-- What may follow the digits before the point. -/
def pointOrEnd (negative : Bool) (significand : Nat) (scale : Int) (c : Char) : Step :=
  if c = '.' then .next (.point negative significand scale)
  else exponentOrEnd negative significand scale c

/-- A digit after the point. -/
def fractionDigit (negative : Bool) (significand : Nat) (scale : Int) (d : Nat) : Step :=
  match pushDigit? significand d with
  | some significand => .next (.fraction negative significand (scale - 1))
  | none => .next (.spill negative significand scale)

/-- The first digit of an exponent, which must be there. -/
def powerDigit (negative : Bool) (significand : Nat) (scale : Int) (down : Bool) (c : Char) :
    Step :=
  match digit? c with
  | some d => .next (.power negative significand scale down d)
  | none => .invalid

/-- The number with one more character. -/
def step (state : NumberState) (c : Char) : Step :=
  match state, digit? c with
  | .minus, some d => .next (if d = 0 then .zero true else .whole true d)
  | .minus, none => .invalid
  | .zero _, some _ => .invalid
  | .zero negative, none => pointOrEnd negative 0 0 c
  | .whole negative significand, some d =>
    match pushDigit? significand d with
    | some significand => .next (.whole negative significand)
    | none => .next (.long negative significand 1)
  | .whole negative significand, none => pointOrEnd negative significand 0 c
  | .long negative significand scale, some _ => .next (.long negative significand (scale + 1))
  | .long negative significand scale, none => pointOrEnd negative significand scale c
  | .point negative significand scale, some d => fractionDigit negative significand scale d
  | .point .., none => .invalid
  | .fraction negative significand scale, some d => fractionDigit negative significand scale d
  | .fraction negative significand scale, none => exponentOrEnd negative significand scale c
  | .spill .., some _ => .next state
  | .spill negative significand scale, none => exponentOrEnd negative significand scale c
  | .letter negative significand scale, _ =>
    if c = '+' then .next (.sign negative significand scale false)
    else if c = '-' then .next (.sign negative significand scale true)
    else powerDigit negative significand scale false c
  | .sign negative significand scale down, _ => powerDigit negative significand scale down c
  | .power negative significand scale down exponent, some d =>
    let next := exponent * 10 + d
    if next ≤ exponentLimit then .next (.power negative significand scale down next)
    else if significand ≠ 0 ∧ !down then .tooLarge
    else .next (.vanished negative)
  | .power .., none => .ends
  | .vanished _, some _ => .next state
  | .vanished _, none => .ends

/-- The number may end here. -/
def isComplete : NumberState → Bool
  | .minus | .point .. | .letter .. | .sign .. => false
  | _ => true

/-- The number that ends here, unless it is too large. -/
def value? : NumberState → Option Number
  | .zero negative => integer? negative 0
  | .whole negative significand => integer? negative significand
  | .long negative significand scale => fractional? negative significand scale
  | .fraction negative significand scale => fractional? negative significand scale
  | .spill negative significand scale => fractional? negative significand scale
  | .power negative significand scale down exponent =>
    fractional? negative significand (if down then scale - exponent else scale + exponent)
  | .vanished negative => signed? negative 0
  | .minus | .point .. | .letter .. | .sign .. => none

end NumberState

end Solids.Json
