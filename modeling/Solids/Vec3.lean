import Solids.Scalar
/-!
# Solids.Vec3

**Vectors and points of space.** A point is the vector from the origin to it,
so one type serves both.

The order of the operations is part of every definition: a sum of three
products is added from left to right, and a vector is scaled or divided
component by component. Doubles tell the difference.
-/

namespace Solids

/-- Three components, one per axis. -/
structure Vec3 (K : Type) where
  /-- Along the first axis. -/
  x : K
  /-- Along the second axis. -/
  y : K
  /-- Along the third axis, which points up. -/
  z : K
  deriving Repr

namespace Vec3

variable {K : Type}

/-- The vector with `f` applied to each component. -/
@[inline] def map {L : Type} (f : K → L) (v : Vec3 K) : Vec3 L := ⟨f v.x, f v.y, f v.z⟩

/-- The components in the order of the axes. -/
@[inline] def toList (v : Vec3 K) : List K := [v.x, v.y, v.z]

/-- Every component satisfies `p`. -/
@[inline] def all (p : K → Bool) (v : Vec3 K) : Bool := p v.x && p v.y && p v.z

/-- Some component satisfies `p`. -/
@[inline] def any (p : K → Bool) (v : Vec3 K) : Bool := p v.x || p v.y || p v.z

/-- The same number along every axis. -/
@[inline] def splat (a : K) : Vec3 K := ⟨a, a, a⟩

variable [Scalar K]

instance : Add (Vec3 K) := ⟨fun a b => ⟨a.x + b.x, a.y + b.y, a.z + b.z⟩⟩

instance : Sub (Vec3 K) := ⟨fun a b => ⟨a.x - b.x, a.y - b.y, a.z - b.z⟩⟩

instance : Neg (Vec3 K) := ⟨fun a => ⟨-a.x, -a.y, -a.z⟩⟩

instance : Zero (Vec3 K) := ⟨⟨0, 0, 0⟩⟩

/-- The unit vector along the first axis. -/
@[inline] def unitX : Vec3 K := ⟨1, 0, 0⟩

/-- The unit vector along the second axis. -/
@[inline] def unitY : Vec3 K := ⟨0, 1, 0⟩

/-- The unit vector along the third axis. -/
@[inline] def unitZ : Vec3 K := ⟨0, 0, 1⟩

/-- Each component times `a`. -/
@[inline] def scale (v : Vec3 K) (a : K) : Vec3 K := ⟨v.x * a, v.y * a, v.z * a⟩

/-- Each component divided by `a`. -/
@[inline] def divide (v : Vec3 K) (a : K) : Vec3 K := ⟨v.x / a, v.y / a, v.z / a⟩

/-- The scalar product. -/
@[inline] def dot (a b : Vec3 K) : K := a.x * b.x + a.y * b.y + a.z * b.z

/-- The vector product. -/
@[inline] def cross (a b : Vec3 K) : Vec3 K :=
  ⟨a.y * b.z - a.z * b.y, a.z * b.x - a.x * b.z, a.x * b.y - a.y * b.x⟩

/-- The length. -/
@[inline] def norm (v : Vec3 K) : K := Scalar.sqrt (v.dot v)

/-- The vector of length one in the same direction. -/
@[inline] def normalize (v : Vec3 K) : Vec3 K := v.divide v.norm

/-- The vector of length one in the same direction, unless the length is at
most `epsilon`. A length that does not compare is not that short. -/
@[inline] def normalize? (v : Vec3 K) : Option (Vec3 K) :=
  if v.norm ≤ Scalar.epsilon then none else some v.normalize

/-- Every component is finite. -/
@[inline] def isFinite (v : Vec3 K) : Bool := v.all Scalar.isFinite

/-! ### Components of a result -/

@[simp] theorem add_x (a b : Vec3 K) : (a + b).x = a.x + b.x := rfl
@[simp] theorem add_y (a b : Vec3 K) : (a + b).y = a.y + b.y := rfl
@[simp] theorem add_z (a b : Vec3 K) : (a + b).z = a.z + b.z := rfl
@[simp] theorem sub_x (a b : Vec3 K) : (a - b).x = a.x - b.x := rfl
@[simp] theorem sub_y (a b : Vec3 K) : (a - b).y = a.y - b.y := rfl
@[simp] theorem sub_z (a b : Vec3 K) : (a - b).z = a.z - b.z := rfl
@[simp] theorem neg_x (a : Vec3 K) : (-a).x = -a.x := rfl
@[simp] theorem neg_y (a : Vec3 K) : (-a).y = -a.y := rfl
@[simp] theorem neg_z (a : Vec3 K) : (-a).z = -a.z := rfl
@[simp] theorem zero_x : (0 : Vec3 K).x = 0 := rfl
@[simp] theorem zero_y : (0 : Vec3 K).y = 0 := rfl
@[simp] theorem zero_z : (0 : Vec3 K).z = 0 := rfl
@[simp] theorem scale_x (v : Vec3 K) (a : K) : (v.scale a).x = v.x * a := rfl
@[simp] theorem scale_y (v : Vec3 K) (a : K) : (v.scale a).y = v.y * a := rfl
@[simp] theorem scale_z (v : Vec3 K) (a : K) : (v.scale a).z = v.z * a := rfl
@[simp] theorem divide_x (v : Vec3 K) (a : K) : (v.divide a).x = v.x / a := rfl
@[simp] theorem divide_y (v : Vec3 K) (a : K) : (v.divide a).y = v.y / a := rfl
@[simp] theorem divide_z (v : Vec3 K) (a : K) : (v.divide a).z = v.z / a := rfl

end Vec3

end Solids
