/-!
# Solids.Scalar

The **numbers geometry is computed with**. Every geometric definition of the
library is written once, over a type `K` with a `Scalar` instance, and is used
at two kinds of number:

* at `Double`, where the program runs: IEEE doubles, every operation rounded;
* at an exact type such as the reals, where a statement about geometry is free
  of rounding.

Design points:

* Comparison is `<` and `≤` and nothing else. A NaN compares false with
  everything, so a definition fixes what it does with a NaN by the direction in
  which it compares, and equality is two comparisons (`same`).
* A bounded number type says so in `largest?`. What depends on the bound
  (`isFinite`, the caps of a bounding box) reads that field, so an exact type,
  which has no bound, needs no case of its own.
* Sine, cosine and π are a separate class, `Trig`: planes, trees and boxes need
  none of them, and only the round shapes and rotations ask for it.
-/

namespace Solids

/-- Numbers with the operations that geometry needs. No law is assumed: doubles
have almost none. -/
class Scalar (K : Type) extends Add K, Sub K, Mul K, Div K, Neg K, LT K, LE K, Zero K, One K where
  /-- The number nearest to a natural number. -/
  ofNat : Nat → K
  /-- The square root. -/
  sqrt : K → K
  /-- The largest finite number, where the type has one. -/
  largest? : Option K
  /-- `<` can be decided. -/
  decLt : (a b : K) → Decidable (a < b)
  /-- `≤` can be decided. -/
  decLe : (a b : K) → Decidable (a ≤ b)

/-- The circle functions, for round shapes and rotations. -/
class Trig (K : Type) where
  /-- Half of a full turn, in radians. -/
  pi : K
  /-- The sine of an angle in radians. -/
  sin : K → K
  /-- The cosine of an angle in radians. -/
  cos : K → K

namespace Scalar

variable {K : Type} [Scalar K]

instance (a b : K) : Decidable (a < b) := decLt a b

instance (a b : K) : Decidable (a ≤ b) := decLe a b

/-- Two halves make one. -/
@[inline] def half : K := 1 / ofNat 2

/-- Lengths up to this count as no length: `2⁻⁵²`, the gap between one and the
next larger double. -/
@[inline] def epsilon : K := 1 / ofNat 4503599627370496

/-- The magnitude of a number. -/
@[inline] def abs (a : K) : K := if a < 0 then -a else a

/-- Equal in value: neither number is above the other, and they do compare. The
two zeros of a double are the same; a NaN is not the same as itself. -/
@[inline] def same (a b : K) : Bool := decide (a ≤ b) && decide (b ≤ a)

/-- The same as zero. -/
@[inline] def isZero (a : K) : Bool := same a 0

/-- Not above the largest number nor below its negative, where there is one. -/
@[inline] def isFinite (a : K) : Bool :=
  match (largest? : Option K) with
  | none => true
  | some m => decide (-m ≤ a) && decide (a ≤ m)

/-- The sum of a list, added from left to right. It starts from the negative
zero, which is the double that changes no other when it is added. -/
@[specialize] def sum (terms : List K) : K := terms.foldl (· + ·) (-0)

/-- The smaller of two numbers, the second one if they do not compare. -/
@[inline] def smaller (a b : K) : K := if a ≤ b then a else b

/-- The larger of two numbers, the second one if they do not compare. -/
@[inline] def larger (a b : K) : K := if b ≤ a then a else b

@[simp] theorem sum_nil : sum ([] : List K) = -0 := rfl

end Scalar

/-- The full turn in radians. -/
@[inline] def Trig.tau {K : Type} [Scalar K] [Trig K] : K := Scalar.ofNat 2 * Trig.pi

/-- One degree in radians. -/
@[inline] def Trig.degree {K : Type} [Scalar K] [Trig K] : K := Trig.pi / Scalar.ofNat 180

end Solids
