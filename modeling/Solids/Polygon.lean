import Solids.Plane
/-!
# Solids.Polygon

**Convex polygons**, the faces of solids, and how a plane cuts them.

A polygon carries the plane that supports it. The plane is derived once, from the
outline the polygon is made with; pieces cut from it keep the plane, because the
outline of a sliver would give a worse one.

Main definitions:

* `Polygon.ofVertices`, `Polygon.flip`, `Polygon.transform`;
* `Polygon.triangles` — the fan of triangles from the first corner, with
  `Polygon.doubledArea` and `facetNormal` read off it;
* `Plane.split` — the pieces of a polygon on, in front of and behind a plane.
-/

namespace Solids

/-- A convex polygon, its corners counter-clockwise as seen from outside the
solid. -/
structure Polygon (K : Type) where
  /-- The corners in order. -/
  vertices : List (Vertex K)
  /-- The supporting plane; its front is outside the solid. -/
  plane : Plane K
  deriving Repr

/-- Three corners. -/
structure Triangle (K : Type) where
  /-- The first corner. -/
  a : Vertex K
  /-- The second corner. -/
  b : Vertex K
  /-- The third corner. -/
  c : Vertex K
  deriving Repr

namespace Triangle

variable {K : Type} [Scalar K]

/-- The corners in order. -/
@[inline] def toList (t : Triangle K) : List (Vertex K) := [t.a, t.b, t.c]

/-- The vector product of the two edges that leave the first corner: normal to
the triangle, and as long as twice its area. -/
@[inline] def edgeProduct (t : Triangle K) : Vec3 K :=
  (t.b.pos - t.a.pos).cross (t.c.pos - t.a.pos)

/-- The unit normal that the order of the corners gives, or the normal kept at
the first corner if the triangle has no area. -/
@[inline] def facetNormal (t : Triangle K) : Vec3 K := t.edgeProduct.normalize?.getD t.a.normal

/-- Six times the volume of the tetrahedron that the triangle spans with the
origin, positive if the origin is behind it. -/
@[inline] def sixfoldVolume (t : Triangle K) : K := t.a.pos.dot (t.b.pos.cross t.c.pos)

end Triangle

namespace Polygon

variable {K : Type} [Scalar K]

/-- The polygon with these corners, on the plane that fits them. -/
@[specialize] def ofVertices (corners : List (Vertex K)) : Polygon K :=
  ⟨corners, Plane.ofVertices corners⟩

/-- The polygon seen from the other side: the order of the corners, their normals
and the plane are all reversed. -/
@[specialize] def flip (q : Polygon K) : Polygon K :=
  ⟨q.vertices.reverse.map Vertex.flip, q.plane.flip⟩

/-- The fan of triangles from the first corner. The polygon is convex, so they
cover it and nothing else. -/
def triangles : Polygon K → List (Triangle K)
  | ⟨first :: rest, _⟩ => (rest.zip rest.tail).map fun e => ⟨first, e.1, e.2⟩
  | ⟨[], _⟩ => []

/-- Twice the area, summed over the fan of triangles. -/
@[specialize] def doubledArea (q : Polygon K) : K :=
  Scalar.sum (q.triangles.map fun t => t.edgeProduct.norm)

/-- The polygon moved by `motion`, normals by its transposed inverse `normals`. A
motion that mirrors space also reverses the corners, so that the front stays
outside. -/
@[specialize] def transform (motion normals : Mat4 K) (mirrored : Bool) (q : Polygon K) :
    Polygon K :=
  let moved := q.vertices.map (Vertex.transform motion normals)
  let point := match q.vertices with
    | first :: _ => first.pos
    | [] => 0
  ⟨if mirrored then moved.reverse else moved, q.plane.transform motion normals point⟩

/-- Every corner is at a finite position. -/
@[specialize] def isFinite (q : Polygon K) : Bool := q.vertices.all Vertex.isFinite

@[simp] theorem flip_vertices (q : Polygon K) :
    q.flip.vertices = q.vertices.reverse.map Vertex.flip := rfl

@[simp] theorem flip_plane (q : Polygon K) : q.flip.plane = q.plane.flip := rfl

omit [Scalar K] in
@[simp] theorem triangles_length (q : Polygon K) :
    q.triangles.length = q.vertices.length - 2 := by
  obtain ⟨vertices, plane⟩ := q
  cases vertices with
  | nil => rfl
  | cons first rest =>
    simp only [triangles, List.length_map, List.length_zip, List.length_tail, List.length_cons]
    omega

end Polygon

/-! ### Cutting -/

/-- The pieces of polygons that a plane has sorted. -/
structure Pieces (K : Type) where
  /-- On the plane, facing its front. -/
  onFront : List (Polygon K) := []
  /-- On the plane, facing its back. -/
  onBack : List (Polygon K) := []
  /-- In front of the plane. -/
  front : List (Polygon K) := []
  /-- Behind the plane. -/
  back : List (Polygon K) := []

/-- A corner with the side it is on. -/
structure SidedVertex (K : Type) where
  /-- The corner. -/
  vertex : Vertex K
  /-- Its side. -/
  side : Side

namespace Plane

variable {K : Type} [Scalar K]

/-- The side that the whole of a polygon is on. -/
@[inline] def sideOfPolygon (eps : K) (p : Plane K) (q : Polygon K) : Side :=
  p.sideOfAll eps q.vertices

/-- Where the edge from `a` to `b` meets the plane, if the two corners are on
different sides of it. An edge that runs along the plane meets it nowhere. -/
@[inline] def crossing? (p : Plane K) (a b : SidedVertex K) : Option (Vertex K) :=
  if a.side.join b.side = .across then
    let along := p.normal.dot (b.vertex.pos - a.vertex.pos)
    if Scalar.epsilon < Scalar.abs along then
      some (a.vertex.interpolate b.vertex ((p.w - p.normal.dot a.vertex.pos) / along))
    else none
  else none

/-- The corners of the piece that is not on the side `away`: walking round the
outline, every corner that is not on that side, and every crossing. -/
@[specialize] def partWithout (away : Side) (p : Plane K)
    (outline : List (SidedVertex K × SidedVertex K)) : List (Vertex K) :=
  outline.flatMap fun e =>
    let crossing := (p.crossing? e.1 e.2).toList
    if e.1.side = away then crossing else e.1.vertex :: crossing

/-- The polygon with these corners on the plane of `q`, if they are enough for
one. -/
@[inline] def piece? (q : Polygon K) (corners : List (Vertex K)) : List (Polygon K) :=
  if 3 ≤ corners.length then [⟨corners, q.plane⟩] else []

/-- The pieces of a polygon. One that is on the plane is sorted by the way it
faces; one that lies across the plane is cut in two, and both pieces keep the
plane of the polygon. -/
@[specialize] def split (eps : K) (p : Plane K) (q : Polygon K) : Pieces K :=
  match p.sideOfPolygon eps q with
  | .on => if 0 < p.normal.dot q.plane.normal then { onFront := [q] } else { onBack := [q] }
  | .front => { front := [q] }
  | .back => { back := [q] }
  | .across =>
    let outline := edges (q.vertices.map fun v => ⟨v, p.sideOf eps v.pos⟩)
    { front := piece? q (p.partWithout .back outline)
      back := piece? q (p.partWithout .front outline) }

/-- The pieces of each polygon of a list. -/
@[specialize] def splitAll (eps : K) (p : Plane K) (polygons : List (Polygon K)) :
    List (Pieces K) :=
  polygons.map (p.split eps)

@[simp] theorem splitAll_nil (eps : K) (p : Plane K) : p.splitAll eps [] = [] := rfl

end Plane

/-! ### Collecting pieces -/

namespace Pieces

variable {K : Type}

/-- All pieces on the plane, polygon by polygon, those facing its front first. -/
@[inline] def onPlane (pieces : List (Pieces K)) : List (Polygon K) :=
  pieces.flatMap fun s => s.onFront ++ s.onBack

/-- All pieces in front of the plane, those on it that face its front included. -/
@[inline] def inFront (pieces : List (Pieces K)) : List (Polygon K) :=
  pieces.flatMap fun s => s.onFront ++ s.front

/-- All pieces behind the plane, those on it that face its back included. -/
@[inline] def behind (pieces : List (Pieces K)) : List (Polygon K) :=
  pieces.flatMap fun s => s.onBack ++ s.back

end Pieces

end Solids
