import Solids.Proofs.Composition
/-!
# Solids.Proofs.Rotation

**Rotations about the three axes.** The matrix of a rotation by three angles has nine entries made
of six sines and cosines. It is the product of the matrices for one axis each, of which that for the
first axis is applied first.

Main definitions:

* `Vec3.aboutX`, `Vec3.aboutY`, `Vec3.aboutZ` — what rotating about an axis does to a vector;
* `Mat4.IsRotation` — a matrix that maps points, directions and normals alike;
* `Polygon.mapBy` — the face with every vector of it mapped.

Main statements:

* `Mat4.rotation_eq_mul` — the three factors, in their order;
* `Polygon.IsExact.transform_of_isRotation` — a face is mapped as it is, with its corners in the
  same order and its plane at the same distance from the origin;
* `Mesh.rotate_in_turn` — one rotation by three angles against three rotations by one angle each.

A rotation leaves the origin where it is. So the matrix for normals divides by nothing, and the
normals of faces come out as they should.
-/

namespace Solids

open Outline

/-! ### Rotating about one axis -/

namespace Vec3

/-- The vector rotated about the first axis, which takes the second axis towards the third. -/
noncomputable def aboutX (a : ℝ) (v : Vec3 ℝ) : Vec3 ℝ :=
  ⟨v.x, Real.cos a * v.y - Real.sin a * v.z, Real.sin a * v.y + Real.cos a * v.z⟩

/-- The vector rotated about the second axis, which takes the third axis towards the first. -/
noncomputable def aboutY (a : ℝ) (v : Vec3 ℝ) : Vec3 ℝ :=
  ⟨Real.cos a * v.x + Real.sin a * v.z, v.y, -Real.sin a * v.x + Real.cos a * v.z⟩

/-- The vector rotated about the third axis, which takes the first axis towards the second. -/
noncomputable def aboutZ (a : ℝ) (v : Vec3 ℝ) : Vec3 ℝ :=
  ⟨Real.cos a * v.x - Real.sin a * v.y, Real.sin a * v.x + Real.cos a * v.y, v.z⟩

/-- The vector rotated about the first axis, then about the second, then about the third. -/
noncomputable def rotated (angles v : Vec3 ℝ) : Vec3 ℝ :=
  aboutZ angles.z (aboutY angles.y (aboutX angles.x v))

end Vec3

namespace Mat4

variable {m first second : Mat4 ℝ} {x y z : ℝ}

@[simp] theorem linear_rotation_x (x : ℝ) : (rotation ⟨x, 0, 0⟩).linear = Vec3.aboutX x := by
  funext v
  ext <;> simp [rotation, linear, Vec3.aboutX, Trig.sin, Trig.cos, sub_eq_add_neg]

@[simp] theorem linear_rotation_y (y : ℝ) : (rotation ⟨0, y, 0⟩).linear = Vec3.aboutY y := by
  funext v
  ext <;> simp [rotation, linear, Vec3.aboutY, Trig.sin, Trig.cos]

@[simp] theorem linear_rotation_z (z : ℝ) : (rotation ⟨0, 0, z⟩).linear = Vec3.aboutZ z := by
  funext v
  ext <;> simp [rotation, linear, Vec3.aboutZ, Trig.sin, Trig.cos, sub_eq_add_neg]

/-- A rotation about the three axes is one about the first axis, then one about the second, then one
about the third. -/
theorem rotation_eq_mul (x y z : ℝ) : rotation ⟨x, y, z⟩ =
    (rotation ⟨0, 0, z⟩).mul ((rotation ⟨0, y, 0⟩).mul (rotation ⟨x, 0, 0⟩)) := by
  simp only [rotation, mul, Trig.sin, Trig.cos, Real.sin_zero, Real.cos_zero, mk.injEq]
  refine ⟨?_, ?_, ?_, ?_, ?_, ?_, ?_, ?_, ?_, ?_, ?_, ?_, ?_, ?_, ?_, ?_⟩ <;> ring

/-! ### Matrices of rotations -/

/-- The matrix leaves the origin where it is, does not change volumes, and does to a normal what it
does to a direction. -/
structure IsRotation (m : Mat4 ℝ) : Prop where
  /-- It is the matrix of an affine map. -/
  isAffine : m.IsAffine
  /-- The origin is not moved. -/
  offset : m.offset = 0
  /-- Volumes and their signs stay. -/
  linearDet : m.linearDet = 1
  /-- Normals are mapped like directions. -/
  conormal : ∀ v, m.conormal v = m.linear v

/-- A matrix without a translation whose cofactors are its own entries. -/
theorem IsRotation.of_cofactor (h : m.IsAffine) (hoffset : m.offset = 0) (hdet : m.linearDet = 1)
    (hcofactor : ∀ v, m.cofactor v = m.linear v) : m.IsRotation :=
  ⟨h, hoffset, hdet, fun v => by rw [Mat4.conormal, hdet, inv_one, one_smul, hcofactor]⟩

theorem isAffine_rotation (angles : Vec3 ℝ) : (rotation angles).IsAffine := ⟨rfl, rfl, rfl, rfl⟩

theorem offset_rotation (angles : Vec3 ℝ) : (rotation angles).offset = 0 := rfl

theorem isRotation_x (x : ℝ) : (rotation ⟨x, 0, 0⟩).IsRotation := by
  have hunit := Real.cos_sq_add_sin_sq x
  refine .of_cofactor (isAffine_rotation _) (offset_rotation _) ?_ fun v => ?_
  · simp only [linearDet, rotation, Trig.sin, Trig.cos, Real.sin_zero, Real.cos_zero]
    linear_combination hunit
  · rw [linear_rotation_x]
    ext <;> simp only [cofactor, rotation, Vec3.aboutX, Trig.sin, Trig.cos, Real.sin_zero,
      Real.cos_zero]
    · linear_combination v.x * hunit
    · ring
    · ring

theorem isRotation_y (y : ℝ) : (rotation ⟨0, y, 0⟩).IsRotation := by
  have hunit := Real.cos_sq_add_sin_sq y
  refine .of_cofactor (isAffine_rotation _) (offset_rotation _) ?_ fun v => ?_
  · simp only [linearDet, rotation, Trig.sin, Trig.cos, Real.sin_zero, Real.cos_zero]
    linear_combination hunit
  · rw [linear_rotation_y]
    ext <;> simp only [cofactor, rotation, Vec3.aboutY, Trig.sin, Trig.cos, Real.sin_zero,
      Real.cos_zero]
    · ring
    · linear_combination v.y * hunit
    · ring

theorem isRotation_z (z : ℝ) : (rotation ⟨0, 0, z⟩).IsRotation := by
  have hunit := Real.cos_sq_add_sin_sq z
  refine .of_cofactor (isAffine_rotation _) (offset_rotation _) ?_ fun v => ?_
  · simp only [linearDet, rotation, Trig.sin, Trig.cos, Real.sin_zero, Real.cos_zero]
    linear_combination hunit
  · rw [linear_rotation_z]
    ext <;> simp only [cofactor, rotation, Vec3.aboutZ, Trig.sin, Trig.cos, Real.sin_zero,
      Real.cos_zero]
    · ring
    · ring
    · linear_combination v.z * hunit

theorem linear_mul (hfirst : first.IsAffine) (second : Mat4 ℝ) (v : Vec3 ℝ) :
    (second.mul first).linear v = second.linear (first.linear v) := by
  ext <;> simp only [mul, linear, hfirst.m30, hfirst.m31, hfirst.m32] <;> ring

/-- One rotation after the other is a rotation. -/
theorem IsRotation.mul (hsecond : second.IsRotation) (hfirst : first.IsRotation) :
    (second.mul first).IsRotation where
  isAffine := hsecond.isAffine.mul hfirst.isAffine
  offset := by
    have hbefore := hfirst.offset
    have hafter := hsecond.offset
    simp only [Mat4.offset, Vec3.ext_iff, Vec3.zero_x, Vec3.zero_y, Vec3.zero_z] at hbefore hafter
    ext <;> simp [Mat4.offset, Mat4.mul, hbefore, hafter]
  linearDet := by
    rw [linearDet_mul hfirst.isAffine, hsecond.linearDet, hfirst.linearDet, one_mul]
  conormal v := by
    rw [conormal_mul hfirst.isAffine, hfirst.conormal, hsecond.conormal,
      linear_mul hfirst.isAffine]

theorem isRotation_rotation (angles : Vec3 ℝ) : (rotation angles).IsRotation := by
  obtain ⟨x, y, z⟩ := angles
  rw [rotation_eq_mul]
  exact (isRotation_z z).mul ((isRotation_y y).mul (isRotation_x x))

theorem linear_rotation (angles : Vec3 ℝ) : (rotation angles).linear = Vec3.rotated angles := by
  obtain ⟨x, y, z⟩ := angles
  funext v
  rw [rotation_eq_mul, linear_mul ((isAffine_rotation _).mul (isAffine_rotation _)),
    linear_mul (isAffine_rotation _), linear_rotation_x, linear_rotation_y, linear_rotation_z]
  rfl

namespace IsRotation

variable {u v : Vec3 ℝ}

theorem linearDet_ne_zero (h : m.IsRotation) : m.linearDet ≠ 0 := by
  rw [h.linearDet]
  exact one_ne_zero

theorem mapPoint (h : m.IsRotation) (p : Vec3 ℝ) : m.mapPoint p = m.linear p := by
  rw [mapPoint_eq h.isAffine, h.offset, add_zero]

theorem advance (h : m.IsRotation) (v : Vec3 ℝ) : m.advance v = 0 := by
  rw [Mat4.advance, h.offset, Vec3.dot_comm, Vec3.dot_zero]

theorem dot_linear (h : m.IsRotation) (u v : Vec3 ℝ) :
    (m.linear u).dot (m.linear v) = u.dot v := by
  rw [← h.conormal v, dot_conormal h.linearDet_ne_zero]

theorem norm_linear (h : m.IsRotation) (v : Vec3 ℝ) : (m.linear v).norm = v.norm := by
  rw [Vec3.norm, h.dot_linear, Vec3.norm]

/-- Distances stay. -/
theorem norm_sub (h : m.IsRotation) (p q : Vec3 ℝ) :
    (m.linear p - m.linear q).norm = (p - q).norm := by
  have hsub : m.linear (p - q) = m.linear p - m.linear q := by
    ext <;> simp only [linear, Vec3.sub_x, Vec3.sub_y, Vec3.sub_z] <;> ring
  rw [← hsub, h.norm_linear]

/-- Vector products are mapped with their factors, so space is not mirrored. -/
theorem cofactor (h : m.IsRotation) (v : Vec3 ℝ) : m.cofactor v = m.linear v := by
  rw [cofactor_eq h.linearDet_ne_zero, h.linearDet, one_smul, h.conormal]

theorem mapVector (h : m.IsRotation) {normals : Mat4 ℝ} (hnormals : m.normalMatrix? = some normals)
    (v : Vec3 ℝ) : normals.mapVector v = m.linear v := by
  rw [mapVector_of_normalMatrix? h.isAffine h.linearDet_ne_zero hnormals, if_pos (h.advance v),
    h.conormal]

theorem keepsLong (h : m.IsRotation) {vs : List (Vec3 ℝ)} (hunit : ∀ v ∈ vs, v.norm = 1) :
    m.KeepsLong vs := by
  intro normals hnormals v hv
  rw [h.mapVector hnormals, h.norm_linear, hunit v hv, Scalar.epsilon_real]
  norm_num

theorem direction (h : m.IsRotation) (hv : v.norm = 1) : m.direction v = m.linear v := by
  rw [Mat4.direction, h.advance, if_neg (lt_irrefl 0), h.conormal,
    Vec3.normalize_of_norm_eq_one ((h.norm_linear v).trans hv)]

end IsRotation

end Mat4

/-! ### Faces -/

namespace Polygon

variable {m : Mat4 ℝ} {q : Polygon ℝ} {f g : Vec3 ℝ → Vec3 ℝ}

/-- The face with every position and every normal mapped. Its corners stay in their order, and its
plane stays as far from the origin. -/
def mapBy (f : Vec3 ℝ → Vec3 ℝ) (q : Polygon ℝ) : Polygon ℝ :=
  ⟨q.vertices.map fun v => ⟨f v.pos, f v.normal⟩, ⟨f q.plane.normal, q.plane.w⟩⟩

theorem mapBy_mapBy (f g : Vec3 ℝ → Vec3 ℝ) (q : Polygon ℝ) :
    (q.mapBy f).mapBy g = q.mapBy fun v => g (f v) := by
  simp [mapBy, Function.comp_def]

theorem corners_mapBy (f : Vec3 ℝ → Vec3 ℝ) (q : Polygon ℝ) :
    (q.mapBy f).corners = q.corners.map f := by
  simp [mapBy, corners, Function.comp_def]

theorem IsExact.isPlanar (hq : q.IsExact) : IsPlanar q.corners := by
  refine ⟨q.plane.normal, ?_, fun a ha b hb => ?_⟩
  · intro hzero
    have hunit := hq.unit q.plane.normal List.mem_cons_self
    rw [hzero] at hunit
    simp [Vec3.norm] at hunit
  · exact (sub_eq_zero.mp (hq.on_plane a ha)).trans (sub_eq_zero.mp (hq.on_plane b hb)).symm

/-- What a rotation makes of an exact face. -/
theorem IsExact.transform_of_isRotation (hq : q.IsExact) (h : m.IsRotation) {matrix : Mat4 ℝ}
    (hmatrix : m.normalMatrix? = some matrix) :
    q.transform m matrix (m.linearDet < 0) = q.mapBy m.linear := by
  obtain ⟨x, hx⟩ := hq.exists_mem_corners
  have hlevel : q.plane.normal.dot x = q.plane.w := sub_eq_zero.mp (hq.on_plane x hx)
  have hvertices : q.vertices.map (Vertex.moved m) =
      q.vertices.map fun v => ⟨m.linear v.pos, m.linear v.normal⟩ := by
    refine List.map_congr_left fun v hv => ?_
    rw [Vertex.moved, h.mapPoint, h.direction (hq.unit _ (.tail _ (List.mem_map_of_mem hv)))]
  rw [hq.transform_eq h.isAffine h.linearDet_ne_zero hmatrix (h.keepsLong hq.unit) hx, hvertices,
    h.linearDet, orderedBy_of_pos one_pos, h.direction (hq.unit _ List.mem_cons_self), h.mapPoint,
    h.dot_linear, hlevel]
  rfl

/-- A rotated face is exact. -/
theorem IsExact.mapBy (hq : q.IsExact) (h : m.IsRotation) : (q.mapBy m.linear).IsExact := by
  have hmatrix := Mat4.normalMatrix?_eq h.isAffine h.linearDet_ne_zero
  rw [← hq.transform_of_isRotation h hmatrix]
  exact hq.transform h.isAffine h.linearDet_ne_zero hmatrix (h.keepsLong hq.unit)

/-- A rotated outline runs round its rotated Newell vector. -/
theorem newell_mapBy (h : m.IsRotation) (q : Polygon ℝ) :
    newell (q.mapBy m.linear).corners = m.linear (newell q.corners) := by
  rw [corners_mapBy, ← h.cofactor, ← Mat4.newell_map_mapPoint h.isAffine]
  exact congrArg newell (List.map_congr_left fun p _ => (h.mapPoint p).symm)

end Polygon

/-! ### Meshes -/

namespace Mesh

variable {m : Mesh ℝ} {motion : Mat4 ℝ}

/-- The mesh with every position and every normal mapped. -/
def mapBy (f : Vec3 ℝ → Vec3 ℝ) (m : Mesh ℝ) : Mesh ℝ :=
  ofPolygons (m.polygons.map (Polygon.mapBy f))

theorem mapBy_mapBy (f g : Vec3 ℝ → Vec3 ℝ) (m : Mesh ℝ) :
    (m.mapBy f).mapBy g = m.mapBy fun v => g (f v) := by
  simp only [mapBy, ofPolygons_polygons, List.map_map]
  exact congrArg ofPolygons (List.map_congr_left fun q _ => Polygon.mapBy_mapBy f g q)

theorem positions_mapBy (f : Vec3 ℝ → Vec3 ℝ) (m : Mesh ℝ) :
    (m.mapBy f).positions = m.positions.map f := by
  simp [positions, mapBy, Polygon.mapBy, List.flatMap_map, List.map_flatMap, Function.comp_def]

section

variable (hexact : ∀ q ∈ m.polygons, q.IsExact) (h : motion.IsRotation)

include hexact h

/-- A rotation of exact faces is never refused. -/
theorem transform_of_isRotation : m.transform motion = .ok (m.mapBy motion.linear) := by
  obtain ⟨matrix, hmatrix, hmoved⟩ := exists_transform_eq_ok m h.isAffine h.linearDet_ne_zero
  rw [hmoved, mapBy,
    List.map_congr_left fun q hq => (hexact q hq).transform_of_isRotation h hmatrix]

theorem forall_isExact_mapBy : ∀ q ∈ (m.mapBy motion.linear).polygons, q.IsExact := by
  rw [mapBy, ofPolygons_polygons, List.forall_mem_map]
  exact fun q hq => (hexact q hq).mapBy h

/-- A rotation moves no origin, so the volume under each face stays, whether or not the faces
close. -/
theorem volume_mapBy : (m.mapBy motion.linear).volume = m.volume := by
  obtain ⟨matrix, hmatrix, -⟩ := exists_transform_eq_ok m h.isAffine h.linearDet_ne_zero
  have hsixfold : sixfold
      (m.polygons.map (Polygon.transform motion matrix (motion.linearDet < 0))) =
      |motion.linearDet| * (sixfold m.polygons + motion.advance (newellSum m.polygons)) :=
    sixfold_map_transform h.isAffine h.linearDet_ne_zero fun q hq => (hexact q hq).isPlanar
  rw [List.map_congr_left fun q hq => (hexact q hq).transform_of_isRotation h hmatrix,
    h.linearDet, abs_one, one_mul, h.advance, add_zero] at hsixfold
  rw [volume_eq, volume_eq, mapBy, ofPolygons_polygons, hsixfold]

end

theorem move_rotate (hexact : ∀ q ∈ m.polygons, q.IsExact) (angles : Vec3 ℝ) :
    m.move (.rotate angles) = .ok (m.mapBy (Vec3.rotated angles)) := by
  rw [← Mat4.linear_rotation]
  exact transform_of_isRotation hexact (Mat4.isRotation_rotation angles)

/-- **Rotating about the axes in turn.** A mesh of exact faces is rotated by three angles at once,
and by one angle after the other. Neither is refused, whatever the angles, and both give the same
faces: each position and each normal is rotated about the first axis, then about the second, then
about the third, and the corners of a face stay in their order. Space is not mirrored, so an outline
that ran round its normal still does. All distances stay, and so does the volume. -/
theorem rotate_in_turn (hexact : ∀ q ∈ m.polygons, q.IsExact) (x y z : ℝ) :
    ∃ once first second third : Mesh ℝ, m.move (.rotate ⟨x, y, z⟩) = .ok once ∧
      m.move (.rotate ⟨x, 0, 0⟩) = .ok first ∧ first.move (.rotate ⟨0, y, 0⟩) = .ok second ∧
      second.move (.rotate ⟨0, 0, z⟩) = .ok third ∧ third.polygons = once.polygons ∧
      first = m.mapBy (Vec3.aboutX x) ∧ second = first.mapBy (Vec3.aboutY y) ∧
      third = second.mapBy (Vec3.aboutZ z) ∧ once = m.mapBy (Vec3.rotated ⟨x, y, z⟩) ∧
      (∀ q ∈ m.polygons, newell (q.mapBy (Vec3.rotated ⟨x, y, z⟩)).corners =
        Vec3.rotated ⟨x, y, z⟩ (newell q.corners)) ∧
      (∀ p q, (Vec3.rotated ⟨x, y, z⟩ p - Vec3.rotated ⟨x, y, z⟩ q).norm = (p - q).norm) ∧
      once.positions = m.positions.map (Vec3.rotated ⟨x, y, z⟩) ∧ once.volume = m.volume := by
  have hall := Mat4.isRotation_rotation ⟨x, y, z⟩
  have hlinear := Mat4.linear_rotation ⟨x, y, z⟩
  have hx := transform_of_isRotation hexact (Mat4.isRotation_x x)
  have hexact_x := forall_isExact_mapBy hexact (Mat4.isRotation_x x)
  have hy := transform_of_isRotation hexact_x (Mat4.isRotation_y y)
  have hexact_y := forall_isExact_mapBy hexact_x (Mat4.isRotation_y y)
  have hz := transform_of_isRotation hexact_y (Mat4.isRotation_z z)
  rw [Mat4.linear_rotation_x] at hx hy hz
  rw [Mat4.linear_rotation_y] at hy hz
  rw [Mat4.linear_rotation_z] at hz
  refine ⟨_, _, _, _, move_rotate hexact ⟨x, y, z⟩, hx, hy, hz, ?_, rfl, rfl, rfl, rfl,
    fun q _ => ?_, fun p q => ?_, positions_mapBy _ m, ?_⟩
  · rw [mapBy_mapBy, mapBy_mapBy]
    rfl
  · rw [← hlinear]
    exact Polygon.newell_mapBy hall q
  · rw [← hlinear]
    exact hall.norm_sub p q
  · rw [← hlinear]
    exact volume_mapBy hexact hall

theorem forall_isExact_groundSquare : ∀ q ∈ groundSquare.polygons, q.IsExact := by
  simpa [groundSquare] using Polygon.isExact_groundSquare

/-- The square is rotated by a right angle about each axis. It stands upright afterwards: three
right angles about different axes do to its corners what one about the second axis does. -/
theorem rotate_in_turn_square : ∃ once first second third : Mesh ℝ,
    groundSquare.positions = [⟨0, 0, 0⟩, ⟨1, 0, 0⟩, ⟨1, 1, 0⟩, ⟨0, 1, 0⟩] ∧
    groundSquare.move (.rotate ⟨Real.pi / 2, Real.pi / 2, Real.pi / 2⟩) = .ok once ∧
    groundSquare.move (.rotate ⟨Real.pi / 2, 0, 0⟩) = .ok first ∧
    first.move (.rotate ⟨0, Real.pi / 2, 0⟩) = .ok second ∧
    second.move (.rotate ⟨0, 0, Real.pi / 2⟩) = .ok third ∧ third.polygons = once.polygons ∧
    once.positions = [⟨0, 0, 0⟩, ⟨0, 0, -1⟩, ⟨0, 1, -1⟩, ⟨0, 1, 0⟩] ∧
    once.volume = groundSquare.volume := by
  obtain ⟨once, first, second, third, honce, hfirst, hsecond, hthird, hsame, -, -, -, -, -, -,
    hpositions, hvolume⟩ := rotate_in_turn forall_isExact_groundSquare (Real.pi / 2)
      (Real.pi / 2) (Real.pi / 2)
  have hcorners : groundSquare.positions = [⟨0, 0, 0⟩, ⟨1, 0, 0⟩, ⟨1, 1, 0⟩, ⟨0, 1, 0⟩] := by
    simp [positions, groundSquare, Polygon.groundSquare, Polygon.ofVertices]
  refine ⟨once, first, second, third, hcorners, honce, hfirst, hsecond, hthird, hsame, ?_, hvolume⟩
  rw [hpositions, hcorners]
  simp [Vec3.rotated, Vec3.aboutX, Vec3.aboutY, Vec3.aboutZ]

end Mesh

end Solids
