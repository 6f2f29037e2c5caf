import Solids.Kernel.Error
import Solids.Mesh
/-!
# Solids.Mesh.Motion

**Moving meshes** by affine maps.

A map that flattens space has no place for normals, and one that leaves the range
of numbers has none for corners; both are refused. A map that mirrors space
reverses the order of every face's corners.
-/

namespace Solids

namespace Motion

variable {K : Type} [Scalar K] [Trig K]

/-- The matrix of a motion with its angles in radians. -/
def matrix : Motion K → Mat4 K
  | .translate offset => Mat4.translation offset
  | .rotate radians => Mat4.rotation radians
  | .scale factors => Mat4.scaling factors

/-- The motion with its angles, given in degrees, in radians. -/
def inRadians : Motion K → Motion K
  | .rotate degrees => .rotate (degrees.scale Trig.degree)
  | motion => motion

end Motion

namespace Mesh

variable {K : Type} [Scalar K]

/-- The mesh moved by an affine map. -/
@[specialize] def transform (m : Mesh K) (matrix : Mat4 K) : Except (KernelError K) (Mesh K) :=
  let det := matrix.linearDet
  if Scalar.isZero det || !Scalar.isFinite det then .error .singularTransform
  else
    match matrix.normalMatrix? with
    | none => .error .singularTransform
    | some normals =>
      let moved := m.polygons.map (Polygon.transform matrix normals (det < 0))
      if moved.all Polygon.isFinite then .ok (ofPolygons moved) else .error .nonFinite

/-- The mesh after a motion with its angles in radians. -/
@[inline] def move [Trig K] (m : Mesh K) (motion : Motion K) : Except (KernelError K) (Mesh K) :=
  m.transform motion.matrix

end Mesh

end Solids
