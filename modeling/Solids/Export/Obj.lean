import Solids.Decimal.Layout
import Solids.Double
import Solids.Mesh
import Std.Data.HashMap
/-!
# Solids.Export.Obj

**OBJ files**: a list of positions and, for each polygon, a face that refers to them
by number. Every position is written once, at its first use.

Polygons with fewer than three corners are no faces, and their corners are not used.
-/

namespace Solids.Obj

/-- What makes two positions the same: the bits of their coordinates, those of a
negative zero being those of zero. -/
abbrev Key : Type := UInt64 × UInt64 × UInt64

/-- The key of a position. -/
def key (p : Vec3 Double) : Key :=
  ((p.x + 0).bits, (p.y + 0).bits, (p.z + 0).bits)

/-- Positions with their numbers. -/
structure PositionTable where
  /-- The positions in the order of their numbers, which begin with one. -/
  positions : Array (Vec3 Double) := #[]
  /-- The number of each position. -/
  numbers : Std.HashMap Key Nat := {}

namespace PositionTable

/-- The table with a position in it, and the number of the position. -/
def number (t : PositionTable) (p : Vec3 Double) : PositionTable × Nat :=
  match t.numbers[key p]? with
  | some n => (t, n)
  | none =>
    let n := t.positions.size + 1
    (⟨t.positions.push p, t.numbers.insert (key p) n⟩, n)

/-- The table with some positions in it, and their numbers in reverse and in front of
`done`. -/
def numberOnto (t : PositionTable) (done : List Nat) : List (Vec3 Double) → PositionTable × List Nat
  | [] => (t, done)
  | p :: rest =>
    let (t, n) := t.number p
    numberOnto t (n :: done) rest

/-- The table with some positions in it, and their numbers. -/
def numberAll (t : PositionTable) (ps : List (Vec3 Double)) : PositionTable × List Nat :=
  let (t, reversed) := t.numberOnto [] ps
  (t, reversed.reverse)

end PositionTable

/-- The faces of some polygons, added in reverse to those that are done. -/
def facesOnto (t : PositionTable) (done : List (List Nat)) :
    List (Polygon Double) → PositionTable × List (List Nat)
  | [] => (t, done)
  | q :: rest =>
    if q.vertices.length < 3 then facesOnto t done rest
    else
      let (t, face) := t.numberAll (q.vertices.map Vertex.pos)
      facesOnto t (face :: done) rest

/-- The positions and the faces of a mesh. -/
def faces (m : Mesh Double) : List (Vec3 Double) × List (List Nat) :=
  let (t, reversed) := facesOnto {} [] m.polygons
  (t.positions.toList, reversed.reverse)

/-- The line of a position. -/
def positionLine (p : Vec3 Double) : String :=
  "v " ++ String.intercalate " " (p.toList.map fun x => Layout.plain.text x.reading)

/-- The line of a face. -/
def faceLine (face : List Nat) : String := "f" ++ String.join (face.map fun n => " " ++ toString n)

/-- The lines of the file. -/
def lines (name : String) (m : Mesh Double) : List String :=
  let (positions, faces) := faces m
  ["# Wavefront OBJ exported by csg-recipe",
   "# " ++ toString positions.length ++ " vertices, " ++ toString faces.length ++ " faces",
   "o " ++ name]
    ++ positions.map positionLine ++ faces.map faceLine

end Solids.Obj
