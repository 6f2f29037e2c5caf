import Solids.Mat4
/-!
# Solids.Vertex

**Corners of polygons**: a position together with the surface normal there.
-/

namespace Solids

/-- A corner of a polygon. The normal is kept as given; nothing makes it a unit
vector. -/
structure Vertex (K : Type) where
  /-- Where the corner is. -/
  pos : Vec3 K
  /-- The direction out of the solid at the corner. -/
  normal : Vec3 K
  deriving Repr

namespace Vertex

variable {K : Type} [Scalar K]

/-- The same corner seen from the other side: its normal reversed. -/
@[inline] def flip (v : Vertex K) : Vertex K := { v with normal := -v.normal }

/-- The corner at parameter `t` on the way from `a` (at zero) to `b` (at one),
positions and normals alike. -/
@[inline] def interpolate (a b : Vertex K) (t : K) : Vertex K where
  pos := a.pos + (b.pos - a.pos).scale t
  normal := a.normal + (b.normal - a.normal).scale t

/-- The corner moved by `motion`, its normal by `normals`, the transposed inverse
of `motion`. The new normal has length one, unless it is too short for that. -/
@[inline] def transform (motion normals : Mat4 K) (v : Vertex K) : Vertex K :=
  let normal := normals.mapVector v.normal
  { pos := motion.mapPoint v.pos, normal := normal.normalize?.getD normal }

/-- The position is finite; the normal need not be. -/
@[inline] def isFinite (v : Vertex K) : Bool := v.pos.isFinite

@[simp] theorem flip_pos (v : Vertex K) : v.flip.pos = v.pos := rfl

@[simp] theorem flip_normal (v : Vertex K) : v.flip.normal = -v.normal := rfl

end Vertex

end Solids
