import Solids.Vec3
/-!
# Solids.BoundingBox

**Axis-aligned boxes** around sets of points.

A box is found in one pass that keeps a running lower and upper corner. A
coordinate that does not compare replaces the running one, and is itself replaced
by the next; over numbers that all compare the result is the least box.
-/

namespace Solids

/-- The points between two corners, axis by axis. -/
structure BoundingBox (K : Type) where
  /-- The corner with the smallest coordinates. -/
  lower : Vec3 K
  /-- The corner with the largest coordinates. -/
  upper : Vec3 K
  deriving Repr

namespace BoundingBox

variable {K : Type} [Scalar K]

/-- The box that is only the origin, which is what nothing measures. -/
def origin : BoundingBox K := ⟨0, 0⟩

/-- The box grown to hold `p`. -/
@[inline] def enclose (b : BoundingBox K) (p : Vec3 K) : BoundingBox K where
  lower := ⟨Scalar.smaller b.lower.x p.x, Scalar.smaller b.lower.y p.y,
    Scalar.smaller b.lower.z p.z⟩
  upper := ⟨Scalar.larger b.upper.x p.x, Scalar.larger b.upper.y p.y,
    Scalar.larger b.upper.z p.z⟩

/-- The box around one point. A lower corner is never above the largest number,
nor an upper corner below its negative: an infinite coordinate widens a box but
does not empty it. -/
def around (p : Vec3 K) : BoundingBox K :=
  match (Scalar.largest? : Option K) with
  | none => ⟨p, p⟩
  | some m => enclose ⟨Vec3.splat m, Vec3.splat (-m)⟩ p

/-- The box around some points, the origin if there are none. -/
@[specialize] def ofPoints : List (Vec3 K) → BoundingBox K
  | [] => origin
  | first :: rest => rest.foldl enclose (around first)

/-- The two boxes have a point in common, be it on the surface. -/
def intersects (a b : BoundingBox K) : Bool :=
  decide (b.lower.x ≤ a.upper.x) && decide (a.lower.x ≤ b.upper.x) &&
  decide (b.lower.y ≤ a.upper.y) && decide (a.lower.y ≤ b.upper.y) &&
  decide (b.lower.z ≤ a.upper.z) && decide (a.lower.z ≤ b.upper.z)

/-- The lengths of the edges. -/
def extents (b : BoundingBox K) : Vec3 K := b.upper - b.lower

/-- The largest magnitude among the components of a vector. -/
def largestMagnitude (v : Vec3 K) : K :=
  Scalar.larger (Scalar.larger (Scalar.abs v.x) (Scalar.abs v.y)) (Scalar.abs v.z)

/-- The corners differ by no more than `eps` along every axis. -/
def closeTo (eps : K) (a b : BoundingBox K) : Bool :=
  decide (largestMagnitude (a.lower - b.lower) ≤ eps) &&
  decide (largestMagnitude (a.upper - b.upper) ≤ eps)

/-- The corners have the same coordinates. -/
def same (a b : BoundingBox K) : Bool :=
  Scalar.same a.lower.x b.lower.x && Scalar.same a.lower.y b.lower.y &&
  Scalar.same a.lower.z b.lower.z && Scalar.same a.upper.x b.upper.x &&
  Scalar.same a.upper.y b.upper.y && Scalar.same a.upper.z b.upper.z

@[simp] theorem ofPoints_nil : ofPoints ([] : List (Vec3 K)) = origin := rfl

@[simp] theorem ofPoints_cons (p : Vec3 K) (rest : List (Vec3 K)) :
    ofPoints (p :: rest) = rest.foldl enclose (around p) := rfl

end BoundingBox

end Solids
