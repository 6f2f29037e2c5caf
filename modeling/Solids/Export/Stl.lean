import Solids.Decimal.Layout
import Solids.Export.Single
import Solids.Mesh
/-!
# Solids.Export.Stl

**STL files**: the triangles of a mesh, each with the normal of its facet, as text or
in binary form. Both forms hold the triangles of `Mesh.triangles` in order.
-/

namespace Solids.Stl

/-! ### Text -/

/-- The components of a vector with six decimal places. -/
def vectorText (v : Vec3 Double) : String :=
  String.intercalate " " (v.toList.map fun x => fixed 6 x.reading)

/-- The lines for a triangle. -/
def facet (t : Triangle Double) : List String :=
  ["  facet normal " ++ vectorText t.facetNormal, "    outer loop"]
    ++ t.toList.map (fun v => "      vertex " ++ vectorText v.pos)
    ++ ["    endloop", "  endfacet"]

/-- The lines of the text form. -/
def lines (name : String) (m : Mesh Double) : List String :=
  ("solid " ++ name) :: (m.triangles.flatMap facet ++ ["endsolid " ++ name])

/-! ### Binary form -/

/-- The bytes for a triangle: its normal, its corners, and two bytes without
meaning. -/
def facetBytes (t : Triangle Double) : List UInt8 :=
  (t.facetNormal :: t.toList.map Vertex.pos).flatMap (fun v => v.toList.flatMap Single.bytes)
    ++ [0, 0]

/-- The bytes of the binary form: an empty header, the number of triangles, and the
triangles. -/
def bytes (m : Mesh Double) : List UInt8 :=
  let triangles := m.triangles
  List.replicate 80 0 ++ Single.littleEndian triangles.length.toUInt32
    ++ triangles.flatMap facetBytes

/-- Every triangle takes 50 bytes. -/
theorem length_facetBytes (t : Triangle Double) : (facetBytes t).length = 50 := rfl

theorem length_flatMap_facetBytes (ts : List (Triangle Double)) :
    (ts.flatMap facetBytes).length = 50 * ts.length := by
  induction ts with
  | nil => rfl
  | cons t rest ih =>
    rw [List.flatMap_cons, List.length_append, length_facetBytes, ih, List.length_cons]
    omega

theorem length_bytes (m : Mesh Double) : (bytes m).length = 84 + 50 * m.triangles.length := by
  rw [bytes, List.length_append, List.length_append, List.length_replicate,
    length_flatMap_facetBytes]
  rfl

end Solids.Stl
