import Solids.Double
/-!
# Solids.Export.Single

**Numbers in single precision**, as the 32 bits that a binary file holds: a sign,
eight bits of exponent and 23 of fraction.

A number is rounded to the nearest one that has 24 significant bits, in the range of
exponents that there is; what is too large becomes an infinity. The bits of finite
numbers are in the order of the numbers, so a carry out of the fraction goes into the
exponent by itself.
-/

namespace Solids.Single

/-- The bits of infinity. -/
def infinity : Nat := 0x7F800000

/-- The bits of a NaN. -/
def quietNaN : Nat := 0x7FC00000

/-- The value of the sign bit. -/
def signBit (negative : Bool) : Nat := if negative then Nat.pow 2 31 else 0

/-- The least exponent of the last of 24 significant bits. -/
def leastExponent : Int := -149

/-- The bits of a number without its sign. -/
def ofMagnitude (m : Magnitude) : Nat :=
  let exponent := max leastExponent (m.exponent + (m.significand.log2 : Int) - 23)
  let shift := m.exponent - exponent
  let units := roundDiv (m.significand * Nat.pow 2 shift.toNat) (Nat.pow 2 (-shift).toNat)
  min (units + (exponent - leastExponent).toNat * Nat.pow 2 23) infinity

/-- The bits of a double in single precision. -/
def bits (x : Double) : UInt32 :=
  match x.reading with
  | .nan negative => (signBit negative + quietNaN).toUInt32
  | .infinite negative => (signBit negative + infinity).toUInt32
  | .finite negative m => (signBit negative + ofMagnitude m).toUInt32

/-- The four bytes of a number of 32 bits, the lowest one first. -/
def littleEndian (n : UInt32) : List UInt8 :=
  [n.toUInt8, (n >>> 8).toUInt8, (n >>> 16).toUInt8, (n >>> 24).toUInt8]

/-- The bytes of a double in single precision. -/
def bytes (x : Double) : List UInt8 := littleEndian (bits x)

end Solids.Single
