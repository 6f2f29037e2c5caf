import Solids.Decimal
import Solids.Scalar
/-!
# Solids.Double

**The numbers the program runs on**: doubles whose NaNs have a sign.

A binary file shows the sign bit even of a value that is no number, and a table of
positions tells the two apart, so the sign is part of the value here. It follows from
two rules:

* an operation on numbers that has no result, such as the difference of two
  infinities, gives a NaN with the sign bit set;
* an operation on a NaN gives that NaN, the first one if there are two. Negation turns
  its sign round.

Design points:

* The two kinds of value are constructors. What a definition does with a NaN is thus
  decided by its cases, and not by what `Float` makes of one.
* A NaN compares with nothing, so `<` and `≤` hold between numbers only.
-/

namespace Solids

/-- A double: a number, an infinity included, or a NaN. -/
inductive Double where
  /-- A number. -/
  | number (value : Float) (isNumber : value.isNaN = false)
  /-- No number, with its sign. -/
  | nan (negative : Bool)

namespace Double

/-- A value made outside of any operation. If it is a NaN its sign bit is not set. -/
@[inline] def ofFloat (x : Float) : Double :=
  if h : x.isNaN = false then .number x h else .nan false

/-- The outcome of an operation on numbers. -/
@[inline] def outcome (x : Float) : Double :=
  if h : x.isNaN = false then .number x h else .nan true

/-- The outcome of an operation on one value. -/
@[inline] def unary (operation : Float → Float) : Double → Double
  | .number a _ => outcome (operation a)
  | .nan negative => .nan negative

/-- The outcome of an operation on two values. -/
@[inline] def binary (operation : Float → Float → Float) : Double → Double → Double
  | .number a _, .number b _ => outcome (operation a b)
  | .number _ _, .nan negative => .nan negative
  | .nan negative, _ => .nan negative

/-- The value with the other sign. -/
@[inline] def negate : Double → Double
  | .number a _ => outcome (-a)
  | .nan negative => .nan (!negative)

/-- Both are numbers, and the first one is below the second one. -/
def Less : Double → Double → Prop
  | .number a _, .number b _ => a < b
  | _, _ => False

/-- Both are numbers, and the first one is not above the second one. -/
def AtMost : Double → Double → Prop
  | .number a _, .number b _ => a ≤ b
  | _, _ => False

/-- Whether one value is below another one. -/
@[inline] def decLess : (a b : Double) → Decidable (Less a b)
  | .number a _, .number b _ => Float.decLt a b
  | .number _ _, .nan _ => .isFalse id
  | .nan _, _ => .isFalse id

/-- Whether one value is at most another one. -/
@[inline] def decAtMost : (a b : Double) → Decidable (AtMost a b)
  | .number a _, .number b _ => Float.decLe a b
  | .number _ _, .nan _ => .isFalse id
  | .nan _, _ => .isFalse id

/-- The positive zero. -/
def zero : Double := ofFloat 0.0

/-- One. -/
def one : Double := ofFloat 1.0

/-- The largest number below infinity. -/
def largest : Double := ofFloat 1.7976931348623157e308

/-- The number nearest to a natural number. -/
def ofNat (n : Nat) : Double := ofFloat (Float.ofNat n)

instance : Scalar Double where
  zero := zero
  one := one
  add := binary (· + ·)
  sub := binary (· - ·)
  mul := binary (· * ·)
  div := binary (· / ·)
  neg := negate
  lt := Less
  le := AtMost
  ofNat := ofNat
  sqrt := unary Float.sqrt
  largest? := some largest
  decLt := decLess
  decLe := decAtMost

instance : Trig Double where
  pi := ofFloat 3.141592653589793
  sin := unary Float.sin
  cos := unary Float.cos

/-! ### Bits -/

/-- The 64 bits of a value. -/
def bits : Double → UInt64
  | .number a _ => a.toBits
  | .nan false => 0x7FF8000000000000
  | .nan true => 0xFFF8000000000000

/-- What a value stands for. -/
def reading (x : Double) : Reading := .ofBits x.bits.toNat

/-- The value is a number, and no infinity. -/
def isFinite : Double → Bool
  | .number a _ => a.isFinite
  | .nan _ => false

/-- The natural number that a value is, if it is one. -/
def natural? (x : Double) : Option Nat := x.reading.natural?

@[simp] theorem neg_nan (negative : Bool) : -(nan negative) = nan (!negative) := rfl

@[simp] theorem not_nan_lt (negative : Bool) (a : Double) : ¬ nan negative < a := id

@[simp] theorem not_nan_le (negative : Bool) (a : Double) : ¬ nan negative ≤ a := id

@[simp] theorem not_lt_nan (negative : Bool) (a : Double) : ¬ a < nan negative := by
  cases a <;> exact id

@[simp] theorem not_le_nan (negative : Bool) (a : Double) : ¬ a ≤ nan negative := by
  cases a <;> exact id

end Double

end Solids
