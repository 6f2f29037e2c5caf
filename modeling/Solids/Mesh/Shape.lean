import Solids.Kernel.Error
import Solids.Mesh
/-!
# Solids.Mesh.Shape

**The basic shapes as meshes.** The third axis points up, and every shape is
centred on its center.

* A box has six faces. If an edge has no length, there is nothing inside and the
  mesh is empty.
* A ball has slices around the vertical axis and half as many layers from pole to
  pole. The faces at the poles are triangles, the others have four corners.
* A cylinder has a bottom, a side and a top face in each slice.

The refusals of a shape are tried in the order in which its definition checks
them.
-/

namespace Solids.Mesh

variable {K : Type} [Scalar K]

/-! ### Checks -/

/-- The number of segments of a round shape that does not say. -/
def defaultSegments : UInt32 := 32

/-- The fewest segments that give a round shape an inside. -/
def fewestSegments : UInt32 := 4

/-- The largest number of faces made for one shape. -/
def polygonLimit : Nat := Nat.pow 2 20

/-- A length must be a positive finite number. -/
def requirePositive (parameter : Parameter) (value : K) : Except (KernelError K) Unit :=
  if Scalar.isFinite value && decide (0 < value) then .ok ()
  else .error (.notPositive parameter value)

/-- The components of a vector must be finite. -/
def requireFinite (parameter : Parameter) (values : Vec3 K) : Except (KernelError K) Unit :=
  if values.isFinite then .ok () else .error (.notFinite parameter values)

/-- The center, which must be finite. -/
def resolveCenter (center : Option (Vec3 K)) : Except (KernelError K) (Vec3 K) := do
  let center := center.getD 0
  requireFinite .center center
  return center

/-- The number of segments, which must be enough. -/
def resolveSegments (segments : Option UInt32) : Except (KernelError K) UInt32 :=
  let segments := segments.getD defaultSegments
  if segments < fewestSegments then .error (.tooFewSegments segments) else .ok segments

/-- A shape of that many segments has `count` faces, which must not be too
many. -/
def requireCount (segments : UInt32) (count : Nat) : Except (KernelError K) Unit :=
  if count ≤ polygonLimit then .ok () else .error (.tooManySegments segments)

/-! ### Boxes -/

/-- The faces of a box with its lowest corner at `o`. The corners of each are
counter-clockwise as seen from outside. -/
def cuboidFaces (o size : Vec3 K) : List (Polygon K) :=
  let corner (x y z : K) : Vec3 K := o + ⟨x, y, z⟩
  let c0 := corner 0 0 0
  let c1 := corner size.x 0 0
  let c2 := corner size.x size.y 0
  let c3 := corner 0 size.y 0
  let c4 := corner 0 0 size.z
  let c5 := corner size.x 0 size.z
  let c6 := corner size.x size.y size.z
  let c7 := corner 0 size.y size.z
  let face (corners : List (Vec3 K)) (normal : Vec3 K) : Polygon K :=
    .ofVertices (corners.map fun pos => ⟨pos, normal⟩)
  [face [c0, c3, c2, c1] (-Vec3.unitZ), face [c4, c5, c6, c7] Vec3.unitZ,
   face [c0, c1, c5, c4] (-Vec3.unitY), face [c3, c7, c6, c2] Vec3.unitY,
   face [c0, c4, c7, c3] (-Vec3.unitX), face [c1, c2, c6, c5] Vec3.unitX]

/-- A box. -/
@[specialize] def cuboid (size : Vec3 K) (center : Option (Vec3 K)) :
    Except (KernelError K) (Mesh K) := do
  requireFinite .size size
  if size.any fun a => decide (a < 0) then .error (.negativeSize size)
  let center ← resolveCenter center
  if size.any Scalar.isZero then return empty
  return ofPolygons (cuboidFaces (center - size.scale Scalar.half) size)

/-! ### Balls -/

variable [Trig K]

/-- The angle at which slice `i` of `n` begins. -/
@[inline] def sliceAngle (n i : Nat) : K := Trig.tau * Scalar.ofNat i / Scalar.ofNat n

/-- The corner where slice `i` of `slices` and layer `j` of `layers` begin. -/
@[inline] def sphereVertex (center : Vec3 K) (radius : K) (slices layers i j : Nat) : Vertex K :=
  let phi : K := sliceAngle slices i
  let theta : K := Trig.pi * Scalar.ofNat j / Scalar.ofNat layers
  let direction : Vec3 K :=
    ⟨Trig.sin theta * Trig.cos phi, Trig.sin theta * Trig.sin phi, Trig.cos theta⟩
  ⟨center + direction.scale radius, direction⟩

/-- The face of a ball in slice `i` and layer `j`. At a pole the two corners on
it are one. -/
@[specialize] def sphereFace (center : Vec3 K) (radius : K) (slices layers i j : Nat) :
    Polygon K :=
  let corner := sphereVertex center radius slices layers
  .ofVertices
    ([corner i (j + 1)] ++ (if j + 1 < layers then [corner (i + 1) (j + 1)] else [])
      ++ (if 0 < j then [corner (i + 1) j] else []) ++ [corner i j])

/-- The number of layers of a ball. -/
def sphereLayers (slices : Nat) : Nat := max (slices / 2) 2

/-- A ball. -/
@[specialize] def sphere (radius : K) (center : Option (Vec3 K)) (segments : Option UInt32) :
    Except (KernelError K) (Mesh K) := do
  requirePositive .radius radius
  let center ← resolveCenter center
  let segments ← resolveSegments segments
  let slices := segments.toNat
  let layers := sphereLayers slices
  requireCount segments (slices * layers)
  return ofPolygons ((List.range slices).flatMap fun i =>
    (List.range layers).map fun j => sphereFace center radius slices layers i j)

/-! ### Cylinders -/

/-- The three faces of a cylinder in slice `i`: the sectors of the bottom and the
top, and the side between them. -/
@[specialize] def cylinderFaces (center : Vec3 K) (radius z0 z1 : K) (slices i : Nat) :
    List (Polygon K) :=
  let direction (i : Nat) : Vec3 K :=
    let angle : K := sliceAngle slices i
    ⟨Trig.cos angle, Trig.sin angle, 0⟩
  let rim (d : Vec3 K) (z : K) : Vec3 K := ⟨center.x + radius * d.x, center.y + radius * d.y, z⟩
  let n0 := direction i
  let n1 := direction (i + 1)
  let b0 := rim n0 z0
  let b1 := rim n1 z0
  let t0 := rim n0 z1
  let t1 := rim n1 z1
  let up : Vec3 K := Vec3.unitZ
  [.ofVertices [⟨⟨center.x, center.y, z0⟩, -up⟩, ⟨b1, -up⟩, ⟨b0, -up⟩],
   .ofVertices [⟨b0, n0⟩, ⟨b1, n1⟩, ⟨t1, n1⟩, ⟨t0, n0⟩],
   .ofVertices [⟨⟨center.x, center.y, z1⟩, up⟩, ⟨t0, up⟩, ⟨t1, up⟩]]

/-- An upright cylinder. -/
@[specialize] def cylinder (height radius : K) (center : Option (Vec3 K))
    (segments : Option UInt32) : Except (KernelError K) (Mesh K) := do
  requirePositive .height height
  requirePositive .radius radius
  let center ← resolveCenter center
  let segments ← resolveSegments segments
  let slices := segments.toNat
  requireCount segments (slices * 3)
  let z0 := center.z - height * Scalar.half
  let z1 := center.z + height * Scalar.half
  return ofPolygons ((List.range slices).flatMap (cylinderFaces center radius z0 z1 slices))

/-- The mesh of a shape. -/
@[specialize] def ofShape : Shape K → Except (KernelError K) (Mesh K)
  | .cuboid size center => cuboid size center
  | .sphere radius center segments => sphere radius center segments
  | .cylinder height radius center segments => cylinder height radius center segments

end Solids.Mesh
