import Solids.Mesh
import Solids.Operation
/-!
# Solids.Mesh.Boolean

**Union, difference and intersection of meshes.**

Solids whose bounding boxes have no point in common need no cutting. All others
are made into trees; each tree removes from the other the faces that the result
does not have, and what remains of both is put into one tree. Faces that lie on
each other are met from both sides: clipping the inverted tree once more removes
the second copy of them.

Every operation answers `none` if a tree could not be built within the levels of
the settings.
-/

namespace Solids.Mesh

variable {K : Type} [Scalar K]

/-- The operands as a boolean operation leaves them. Unless one of them is empty
it compares their bounding boxes, which both meshes carry from then on. -/
@[inline] def compared (a b : Mesh K) : Mesh K × Mesh K :=
  if a.isEmpty || b.isEmpty then (a, b) else (a.measured, b.measured)

/-- Neither mesh is empty and their bounding boxes meet. -/
@[inline] def meets (a b : Mesh K) : Bool :=
  !a.isEmpty && !b.isEmpty && a.boundingBox.intersects b.boundingBox

/-- The tree of the faces of a mesh. -/
@[inline] def tree? (s : Settings K) (m : Mesh K) : Option (Tree K) :=
  Tree.ofPolygons s.tolerance s.levels m.polygons

/-- What is in either mesh. -/
@[specialize] def union (s : Settings K) (a b : Mesh K) : Option (Mesh K) :=
  if a.isEmpty then some b
  else if !meets a b then some (a.concat b)
  else do
    let eps := s.tolerance
    let ta ← a.tree? s
    let tb ← b.tree? s
    let ta := ta.clipTo eps tb
    let tb := tb.clipTo eps ta
    let tb := (tb.invert.clipTo eps ta).invert
    let joined ← ta.insert eps s.levels tb.polygons
    return ofPolygons joined.polygons

/-- What is in `a` but not in `b`. -/
@[specialize] def difference (s : Settings K) (a b : Mesh K) : Option (Mesh K) :=
  if !meets a b then some (compared a b).1
  else do
    let eps := s.tolerance
    let ta ← a.tree? s
    let tb ← b.tree? s
    let ta := ta.invert.clipTo eps tb
    let tb := tb.clipTo eps ta
    let tb := (tb.invert.clipTo eps ta).invert
    let joined ← ta.insert eps s.levels tb.polygons
    return ofPolygons joined.invert.polygons

/-- What is in both meshes. -/
@[specialize] def intersection (s : Settings K) (a b : Mesh K) : Option (Mesh K) :=
  if !meets a b then some empty
  else do
    let eps := s.tolerance
    let ta ← a.tree? s
    let tb ← b.tree? s
    let ta := ta.invert
    let tb := (tb.clipTo eps ta).invert
    let ta := ta.clipTo eps tb
    let tb := tb.clipTo eps ta
    let joined ← ta.insert eps s.levels tb.polygons
    return ofPolygons joined.invert.polygons

/-- Combines a mesh with one more. -/
@[specialize] def combineWith (s : Settings K) : Combination → Mesh K → Mesh K → Option (Mesh K)
  | .union => union s
  | .subtract => difference s
  | .intersect => intersection s

/-- Combines a first mesh with all the others, one after the other. -/
@[specialize] def combineAll (s : Settings K) (combination : Combination) :
    Mesh K → List (Mesh K) → Option (Mesh K)
  | m, [] => some m
  | m, next :: rest => do
    let m ← combineWith s combination m next
    combineAll s combination m rest

end Solids.Mesh
