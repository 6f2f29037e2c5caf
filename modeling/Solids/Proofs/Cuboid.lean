import Solids.Proofs.Bounds
import Solids.Proofs.Faces
import Solids.Mesh.Boolean
/-!
# Solids.Proofs.Cuboid

**The six faces of a box.** They are told apart by the way they face: `Facing` names
the six directions, and what a face is follows from its direction and the box.

Main statements:

* `Facing.near_iff` — a point is near the box if it is in front of none of the planes
  of its faces;
* `Facing.face_plane` — a face that is large enough carries its own plane;
* `Facing.sideOfPolygon_face_of_ne` — a box that is thick enough is behind that plane;
* `Mesh.boundingBox_cuboidFaces` — the bounding box of a box.
-/

namespace Solids

open Vec3 Outline

/-- The ways that the faces of a box face. -/
inductive Facing where
  /-- Downwards. -/
  | down
  /-- Upwards. -/
  | up
  /-- Against the second axis. -/
  | front
  /-- Along the second axis. -/
  | back
  /-- Against the first axis. -/
  | left
  /-- Along the first axis. -/
  | right
  deriving DecidableEq

namespace Facing

/-- The direction out of the box. -/
noncomputable def normal : Facing → Vec3 ℝ
  | down => -unitZ
  | up => unitZ
  | front => -unitY
  | back => unitY
  | left => -unitX
  | right => unitX

/-- The way the face on the other side faces. -/
def opposite : Facing → Facing
  | down => up
  | up => down
  | front => back
  | back => front
  | left => right
  | right => left

/-- How far the face is from the one on the other side. -/
def depth (size : Vec3 ℝ) : Facing → ℝ
  | down | up => size.z
  | front | back => size.y
  | left | right => size.x

@[simp] theorem depth_cube (edge : ℝ) (d : Facing) : d.depth ⟨edge, edge, edge⟩ = edge := by
  cases d <;> rfl

/-- Twice the area of the face. -/
noncomputable def doubledArea (size : Vec3 ℝ) : Facing → ℝ
  | down | up => 2 * (size.x * size.y)
  | front | back => 2 * (size.z * size.x)
  | left | right => 2 * (size.y * size.z)

/-- How far along its direction the face is. -/
noncomputable def level (o size : Vec3 ℝ) : Facing → ℝ
  | down => -o.z
  | up => o.z + size.z
  | front => -o.y
  | back => o.y + size.y
  | left => -o.x
  | right => o.x + size.x

/-- The plane that the face is in. -/
noncomputable def plane (o size : Vec3 ℝ) (d : Facing) : Plane ℝ := ⟨d.normal, d.level o size⟩

/-- The corners of the face of the box with its lowest corner at `o`. -/
noncomputable def corners (o size : Vec3 ℝ) : Facing → List (Vec3 ℝ)
  | down => [o + ⟨0, 0, 0⟩, o + ⟨0, size.y, 0⟩, o + ⟨size.x, size.y, 0⟩, o + ⟨size.x, 0, 0⟩]
  | up => [o + ⟨0, 0, size.z⟩, o + ⟨size.x, 0, size.z⟩, o + ⟨size.x, size.y, size.z⟩,
      o + ⟨0, size.y, size.z⟩]
  | front => [o + ⟨0, 0, 0⟩, o + ⟨size.x, 0, 0⟩, o + ⟨size.x, 0, size.z⟩, o + ⟨0, 0, size.z⟩]
  | back => [o + ⟨0, size.y, 0⟩, o + ⟨0, size.y, size.z⟩, o + ⟨size.x, size.y, size.z⟩,
      o + ⟨size.x, size.y, 0⟩]
  | left => [o + ⟨0, 0, 0⟩, o + ⟨0, 0, size.z⟩, o + ⟨0, size.y, size.z⟩, o + ⟨0, size.y, 0⟩]
  | right => [o + ⟨size.x, 0, 0⟩, o + ⟨size.x, size.y, 0⟩, o + ⟨size.x, size.y, size.z⟩,
      o + ⟨size.x, 0, size.z⟩]

/-- The face of the box with its lowest corner at `o`. -/
noncomputable def face (o size : Vec3 ℝ) (d : Facing) : Polygon ℝ :=
  .ofVertices ((d.corners o size).map fun pos => ⟨pos, d.normal⟩)

theorem cuboidFaces_eq (o size : Vec3 ℝ) :
    Mesh.cuboidFaces o size = [down, up, front, back, left, right].map (face o size) := rfl

theorem mem_cuboidFaces {o size : Vec3 ℝ} {q : Polygon ℝ} :
    q ∈ Mesh.cuboidFaces o size ↔ ∃ d, q = face o size d := by
  rw [cuboidFaces_eq, List.mem_map]
  constructor
  · rintro ⟨d, -, rfl⟩
    exact ⟨d, rfl⟩
  · rintro ⟨d, rfl⟩
    exact ⟨d, by cases d <;> simp, rfl⟩

variable {o size x : Vec3 ℝ} {eps : ℝ} {d d' : Facing}

@[simp] theorem face_corners : (face o size d).corners = d.corners o size := by
  simp [face, Polygon.corners, Polygon.ofVertices, Function.comp_def]

@[simp] theorem plane_normal : (d.plane o size).normal = d.normal := rfl

theorem normal_dot_self (d : Facing) : d.normal.dot d.normal = 1 := by
  cases d <;> simp [normal, dot, unitX, unitY, unitZ]

theorem normal_opposite (d : Facing) : d.opposite.normal = -d.normal := by
  cases d <;> simp [normal, opposite]

/-! ### Where the faces are -/

/-- A point is near the box if it is not far in front of the plane of any face. -/
theorem near_iff : (BoundingBox.mk o (o + size)).Near eps x ↔
    ∀ d, (plane o size d).signedDistance x ≤ eps := by
  constructor
  · rintro ⟨⟨hx, hx'⟩, ⟨hy, hy'⟩, ⟨hz, hz'⟩⟩ d
    simp only [add_x, add_y, add_z] at hx' hy' hz'
    cases d <;> simp [Plane.signedDistance, plane, normal, level, dot, unitX, unitY, unitZ] <;>
      linarith
  · intro h
    have hdown := h down
    have hup := h up
    have hfront := h front
    have hback := h back
    have hleft := h left
    have hright := h right
    simp [Plane.signedDistance, plane, normal, level, dot, unitX, unitY, unitZ] at *
    constructor <;> constructor <;> simp only [add_x, add_y, add_z] <;> linarith

/-- All corners of a face are as far along its direction as it is. -/
theorem signedDistance_of_mem_corners (h : x ∈ d.corners o size) :
    (d.plane o size).signedDistance x = 0 := by
  cases d <;>
    simp only [corners, List.mem_cons, List.not_mem_nil, or_false] at h <;>
    rcases h with rfl | rfl | rfl | rfl <;>
    simp [Plane.signedDistance, plane, normal, level, dot, unitX, unitY, unitZ]

/-- The corners of all faces are in the box. -/
theorem near_of_mem_corners (h₀ : 0 ≤ size.x ∧ 0 ≤ size.y ∧ 0 ≤ size.z)
    (h : x ∈ d.corners o size) : (BoundingBox.mk o (o + size)).Near 0 x := by
  obtain ⟨hx, hy, hz⟩ := h₀
  cases d <;>
    simp only [corners, List.mem_cons, List.not_mem_nil, or_false] at h <;>
    rcases h with rfl | rfl | rfl | rfl <;> constructor <;> simp [hx, hy, hz]

/-- What is in the box is no further behind the plane of a face than the box is deep. -/
theorem neg_depth_le_signedDistance (h : (BoundingBox.mk o (o + size)).Near 0 x) (d : Facing) :
    -d.depth size ≤ (d.plane o size).signedDistance x := by
  obtain ⟨⟨hx, hx'⟩, ⟨hy, hy'⟩, ⟨hz, hz'⟩⟩ := h
  simp only [add_x, add_y, add_z] at *
  cases d <;> simp [Plane.signedDistance, plane, normal, level, depth, dot, unitX, unitY, unitZ] <;>
    linarith

/-- Every other face has a corner as far behind the plane of a face as the box is deep. -/
theorem exists_mem_corners (h : d ≠ d') :
    ∃ x ∈ d'.corners o size, (d.plane o size).signedDistance x = -d.depth size := by
  cases d <;> cases d' <;>
    simp [corners, Plane.signedDistance, plane, normal, level, depth, dot, unitX, unitY,
      unitZ] at h ⊢

/-! ### Planes and sides -/

/-- The outline of a face is across its direction. -/
theorem outlineNormal_face (o size : Vec3 ℝ) (d : Facing) :
    Plane.outlineNormal (face o size d).vertices = d.doubledArea size • d.normal := by
  cases d <;>
    simp only [face, Polygon.ofVertices, corners, List.map_cons, List.map_nil,
      Plane.outlineNormal_four] <;>
    ext <;> simp [cross, doubledArea, normal, unitX, unitY, unitZ] <;> ring

theorem doubledArea_nonneg (h₀ : 0 ≤ size.x ∧ 0 ≤ size.y ∧ 0 ≤ size.z) (d : Facing) :
    0 ≤ d.doubledArea size := by
  obtain ⟨hx, hy, hz⟩ := h₀
  cases d <;> simp only [doubledArea] <;> positivity

/-- A face is large if its area is. -/
theorem isLarge_face (h₀ : 0 ≤ size.x ∧ 0 ≤ size.y ∧ 0 ≤ size.z) :
    (face o size d).IsLarge ↔ Scalar.epsilon < d.doubledArea size := by
  rw [Polygon.IsLarge, outlineNormal_face,
    norm_smul_of_unit (doubledArea_nonneg h₀ d) (normal_dot_self d)]

/-- A face that is large enough carries the plane that it is in. -/
theorem face_plane (h : Scalar.epsilon < d.doubledArea size) :
    (face o size d).plane = d.plane o size := by
  refine Polygon.ofVertices_plane ?_ h (normal_dot_self d) (outlineNormal_face o size d) ?_
  · cases d <;> simp [corners]
  · intro v hv
    have hmem : v.pos ∈ d.corners o size := by
      rw [← face_corners]
      exact Polygon.pos_mem_corners hv
    exact sub_eq_zero.mp (signedDistance_of_mem_corners hmem)

/-- A face that is too small carries the ground plane. -/
theorem face_plane_of_le (h₀ : 0 ≤ size.x ∧ 0 ≤ size.y ∧ 0 ≤ size.z)
    (h : d.doubledArea size ≤ Scalar.epsilon) : (face o size d).plane = Plane.ground := by
  refine Polygon.ofVertices_plane_of_le ?_
  rw [← not_lt]
  exact fun hlarge => h.not_gt ((isLarge_face (o := o) h₀).mp hlarge)

theorem sideOfPolygon_face_self (heps : 0 ≤ eps) :
    (d.plane o size).sideOfPolygon eps (face o size d) = .on := by
  rw [Plane.sideOfPolygon_eq_on, face_corners]
  intro x hx
  rw [Plane.sideOf_eq_on, signedDistance_of_mem_corners hx, abs_zero]
  exact heps

/-- The other faces of a box that is deep enough are behind the plane of a face. -/
theorem sideOfPolygon_face_of_ne (heps : 0 ≤ eps) (h₀ : 0 ≤ size.x ∧ 0 ≤ size.y ∧ 0 ≤ size.z)
    (hdepth : eps < d.depth size) (hne : d ≠ d') :
    (d.plane o size).sideOfPolygon eps (face o size d') = .back := by
  rw [Plane.sideOfPolygon_eq_back heps, face_corners]
  constructor
  · intro x hx
    exact near_iff.mp ((near_of_mem_corners h₀ hx).mono heps) d
  · obtain ⟨x, hx, hdistance⟩ : ∃ x ∈ d'.corners o size, _ = -d.depth size := exists_mem_corners hne
    exact ⟨x, hx, by linarith⟩

/-- All faces of a box that is not deep enough are on the plane of a face. -/
theorem sideOfPolygon_face_of_depth_le (heps : 0 ≤ eps)
    (h₀ : 0 ≤ size.x ∧ 0 ≤ size.y ∧ 0 ≤ size.z) (hdepth : d.depth size ≤ eps) (d' : Facing) :
    (d.plane o size).sideOfPolygon eps (face o size d') = .on := by
  rw [Plane.sideOfPolygon_eq_on, face_corners]
  intro x hx
  have hnear := near_of_mem_corners h₀ hx
  have hle := neg_depth_le_signedDistance hnear d
  exact Plane.sideOf_eq_on.mpr (abs_le.mpr ⟨by linarith, near_iff.mp (hnear.mono heps) d⟩)

/-! ### Points of faces -/

/-- Four corners are in order if each three of them are. -/
theorem inOrder_four {n a b c e : Vec3 ℝ} (hb : n.dot b = n.dot a) (hc : n.dot c = n.dot a)
    (he : n.dot e = n.dot a) (habc : 0 ≤ turn n a b c) (habe : 0 ≤ turn n a b e)
    (hace : 0 ≤ turn n a c e) (hbce : 0 ≤ turn n b c e) : InOrder n [a, b, c, e] where
  level := by
    have hlevel : ∀ x ∈ [a, b, c, e], n.dot x = n.dot a := by simp [hb, hc, he]
    exact fun x hx y hy => (hlevel x hx).trans (hlevel y hy).symm
  turns x y z h := by
    have hmem : [x, y, z] ∈ List.sublistsLen 3 [a, b, c, e] := List.mem_sublistsLen.mpr ⟨h, rfl⟩
    simp [List.sublistsLen, List.sublistsLenAux] at hmem
    rcases hmem with ⟨rfl, rfl, rfl⟩ | ⟨rfl, rfl, rfl⟩ | ⟨rfl, rfl, rfl⟩ | ⟨rfl, rfl, rfl⟩ <;>
      assumption

/-- The faces are convex. -/
theorem isConvex_face (h₀ : 0 ≤ size.x ∧ 0 ≤ size.y ∧ 0 ≤ size.z) (d : Facing) :
    (face o size d).IsConvex := by
  obtain ⟨hx, hy, hz⟩ := h₀
  refine ⟨d.normal, fun h0 => ?_, ?_⟩
  · have hunit := normal_dot_self d
    rw [h0, dot_zero] at hunit
    exact zero_ne_one hunit
  · rw [face_corners]
    cases d <;>
      refine inOrder_four ?_ ?_ ?_ ?_ ?_ ?_ ?_ <;>
      simp [normal, turn, dot, cross, unitX, unitY, unitZ] <;> positivity

theorem isConvex_of_mem_cuboidFaces (h₀ : 0 ≤ size.x ∧ 0 ≤ size.y ∧ 0 ≤ size.z)
    {q : Polygon ℝ} (hq : q ∈ Mesh.cuboidFaces o size) : q.IsConvex := by
  obtain ⟨d, rfl⟩ := mem_cuboidFaces.mp hq
  exact isConvex_face h₀ d

/-- The points of a face are in the box. -/
theorem near_of_mem_region (h₀ : 0 ≤ size.x ∧ 0 ≤ size.y ∧ 0 ≤ size.z)
    (h : x ∈ (face o size d).region) : (BoundingBox.mk o (o + size)).Near 0 x := by
  refine Polygon.region_subset (BoundingBox.convex_near 0 _) (fun y hy => ?_) h
  rw [face_corners] at hy
  exact near_of_mem_corners h₀ hy

/-- The point in the middle of a face. -/
noncomputable def center (o size : Vec3 ℝ) (d : Facing) : Vec3 ℝ :=
  o + (1 / 2 : ℝ) • (size + d.depth size • d.normal)

theorem signedDistance_center (o size : Vec3 ℝ) (d : Facing) :
    (d.plane o size).signedDistance (center o size d) = 0 := by
  cases d <;>
    simp [Plane.signedDistance, plane, center, normal, level, depth, dot, unitX, unitY, unitZ] <;>
    ring

theorem center_mem_region (o size : Vec3 ℝ) (d : Facing) :
    center o size d ∈ (face o size d).region := by
  obtain ⟨a, b, c, e, hcorners, hcenter⟩ : ∃ a b c e, d.corners o size = [a, b, c, e] ∧
      (1 / 2 : ℝ) • a + (1 / 2 : ℝ) • c = center o size d := by
    cases d <;> refine ⟨_, _, _, _, rfl, ?_⟩ <;>
      ext <;> simp [center, depth, normal, unitX, unitY, unitZ] <;> ring
  have hmem : ∀ x ∈ [a, b, c, e], x ∈ (face o size d).region := fun x hx =>
    Polygon.mem_region_of_mem (face_corners ▸ hcorners ▸ hx)
  rw [← hcenter]
  exact (face o size d).convex_region (hmem a (by simp)) (hmem c (by simp)) (by norm_num)
    (by norm_num) (by norm_num)

end Facing

/-! ### The box as a whole -/

namespace Mesh

variable {o size : Vec3 ℝ}

theorem boundingBox_cuboidFaces (h₀ : 0 ≤ size.x ∧ 0 ≤ size.y ∧ 0 ≤ size.z) :
    (ofPolygons (cuboidFaces o size)).boundingBox = ⟨o, o + size⟩ := by
  have hmem : ∀ x, x ∈ (ofPolygons (cuboidFaces o size)).positions ↔
      ∃ d : Facing, x ∈ d.corners o size := by
    intro x
    have hcorners : ∀ d, (Facing.face o size d).vertices.map Vertex.pos = d.corners o size :=
      fun _ => Facing.face_corners
    simp only [positions, ofPolygons_polygons, List.mem_flatMap, Facing.mem_cuboidFaces]
    constructor
    · rintro ⟨_, ⟨d, rfl⟩, hx⟩
      exact ⟨d, hcorners d ▸ hx⟩
    · rintro ⟨d, hx⟩
      exact ⟨_, ⟨d, rfl⟩, (hcorners d).symm ▸ hx⟩
  refine BoundingBox.ofPoints_eq (fun x hx => ?_) ((hmem _).mpr ⟨.down, ?_⟩)
    ((hmem _).mpr ⟨.up, ?_⟩)
  · obtain ⟨d, hx⟩ := (hmem x).mp hx
    exact Facing.near_of_mem_corners h₀ hx
  · have hzero : o + ⟨0, 0, 0⟩ = o := add_zero o
    simp [Facing.corners, hzero]
  · have hsize : Vec3.mk size.x size.y size.z = size := rfl
    simp [Facing.corners, hsize]

/-- The box with its lowest corner at `o`. -/
noncomputable def block (o size : Vec3 ℝ) : Mesh ℝ := ofPolygons (cuboidFaces o size)

@[simp] theorem block_polygons : (block o size).polygons = cuboidFaces o size := rfl

/-- Boxes meet if their bounding boxes do. -/
theorem meets_block {o' size' : Vec3 ℝ} (h₀ : 0 ≤ size.x ∧ 0 ≤ size.y ∧ 0 ≤ size.z)
    (h₀' : 0 ≤ size'.x ∧ 0 ≤ size'.y ∧ 0 ≤ size'.z) : meets (block o size) (block o' size')
      = (BoundingBox.mk o (o + size)).intersects ⟨o', o' + size'⟩ := by
  rw [← boundingBox_cuboidFaces h₀, ← boundingBox_cuboidFaces h₀']
  rfl

end Mesh

end Solids
