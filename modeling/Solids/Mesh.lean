import Solids.BoundingBox
import Solids.Tree
/-!
# Solids.Mesh

**Solids as lists of convex polygons.** The polygons of a closed solid bound it on
all sides and face outwards.

Design points:

* A mesh may carry its bounding box. `boundingBox` uses the one that is carried
  and otherwise looks at the corners; `measured` is the mesh that carries it from
  then on. Every operation that changes polygons makes a mesh that carries none.
* `volume` and `doubledArea` read the fan triangles of the polygons, in order.
-/

namespace Solids

/-- A solid bounded by convex polygons. -/
structure Mesh (K : Type) where
  /-- The faces in order. -/
  polygons : List (Polygon K)
  /-- The bounding box, once it has been asked for. -/
  box? : Option (BoundingBox K) := none
  deriving Repr

/-- How a mesh is computed. -/
structure Settings (K : Type) where
  /-- Points up to this far from a plane are on it. -/
  tolerance : K
  /-- How many levels of a tree are built before giving up. No tree that fits into
  memory is as deep as the number chosen by default. -/
  levels : Nat := Nat.pow 2 40

namespace Settings

variable {K : Type} [Scalar K]

/-- The settings in use unless others are chosen. -/
def default : Settings K := { tolerance := 1 / Scalar.ofNat 100000 }

/-- The settings after some choices of a tolerance. Only the first choice counts;
it is raised to `epsilon`, which also stands in for a choice that is no number. -/
def choose : List K → Settings K
  | [] => default
  | first :: _ => { tolerance := if Scalar.epsilon < first then first else Scalar.epsilon }

end Settings

namespace Mesh

variable {K : Type}

/-- The mesh with these faces. -/
@[inline] def ofPolygons (polygons : List (Polygon K)) : Mesh K := { polygons }

/-- The mesh without faces. -/
def empty : Mesh K := ofPolygons []

/-- The mesh has no faces. -/
@[inline] def isEmpty (m : Mesh K) : Bool := m.polygons.isEmpty

/-- The positions of all corners, face by face. -/
def positions (m : Mesh K) : List (Vec3 K) :=
  m.polygons.flatMap fun q => q.vertices.map Vertex.pos

/-- The fan triangles of all faces, in order. -/
def triangles (m : Mesh K) : List (Triangle K) := m.polygons.flatMap Polygon.triangles

/-- Forgets the bounding box, which is then taken from the corners again. -/
@[inline] def invalidate (m : Mesh K) : Mesh K := { m with box? := none }

/-- The faces of both meshes, those of `a` first. -/
@[inline] def concat (a b : Mesh K) : Mesh K := ofPolygons (a.polygons ++ b.polygons)

@[simp] theorem ofPolygons_polygons (polygons : List (Polygon K)) :
    (ofPolygons polygons).polygons = polygons := rfl

@[simp] theorem concat_polygons (a b : Mesh K) :
    (a.concat b).polygons = a.polygons ++ b.polygons := rfl

variable [Scalar K]

/-- The bounding box that the mesh carries, or that of its corners. -/
@[inline] def boundingBox (m : Mesh K) : BoundingBox K :=
  m.box?.getD (BoundingBox.ofPoints m.positions)

/-- The mesh with its bounding box known. -/
@[inline] def measured (m : Mesh K) : Mesh K := { m with box? := some m.boundingBox }

/-- The enclosed volume, positive when the faces of a closed mesh face
outwards. -/
def volume (m : Mesh K) : K :=
  Scalar.sum (m.triangles.map Triangle.sixfoldVolume) / Scalar.ofNat 6

/-- Inside and outside exchanged. -/
def inverse (m : Mesh K) : Mesh K := ofPolygons (m.polygons.map Polygon.flip)

@[simp] theorem measured_polygons (m : Mesh K) : m.measured.polygons = m.polygons := rfl

@[simp] theorem measured_boundingBox (m : Mesh K) : m.measured.boundingBox = m.boundingBox := rfl

@[simp] theorem inverse_polygons (m : Mesh K) :
    m.inverse.polygons = m.polygons.map Polygon.flip := rfl

end Mesh

end Solids
