import Solids.Proofs.MovedPlane
/-!
# Solids.Proofs.Composition

**One motion after the other**, compared with the motion that does both at once. Corners come to
the same places in the same order. Normals come to the same directions, or to opposite ones: each
motion turns a normal over if it moves the origin along it, and moving it twice along one normal is
not the same as moving it once.

Main definitions:

* `Mat4.Concur` — the second motion does to a normal what both do together;
* `Mat4.KeepsLong` — no normal becomes too short to be made a unit vector;
* `Polygon.IsExact` — a face with unit normals whose corners are exactly on its plane.

Main statements:

* `Mat4.direction_comp_eq_iff` — when a normal comes to the same direction both ways;
* `Mesh.transform_comp` — when a mesh does.
-/

namespace Solids

open Outline

/-! ### Directions -/

namespace Mat4

variable {first second : Mat4 ℝ}

theorem direction_smul (m : Mat4 ℝ) {k : ℝ} (hk : 0 < k) (v : Vec3 ℝ) :
    m.direction (k • v) = m.direction v := by
  simp only [direction, advance_smul, conormal_smul, Vec3.normalize_smul hk,
    mul_pos_iff_of_pos_left hk]

/-- An opposite normal is moved to the opposite direction, if the origin is not moved across it. -/
theorem direction_neg (m : Mat4 ℝ) (v : Vec3 ℝ) : m.direction (-v) =
    if m.advance v < 0 then (m.conormal v).normalize else -(m.conormal v).normalize := by
  have hadvance : m.advance (-v) = -m.advance v := by
    rw [← neg_one_smul ℝ v, advance_smul, neg_one_mul]
  have hconormal : m.conormal (-v) = -m.conormal v := by
    rw [← neg_one_smul ℝ v, conormal_smul, neg_one_smul]
  simp only [direction, hadvance, neg_pos, hconormal, Vec3.normalize_neg, neg_neg]

/-- What becomes of a normal by two motions, of which each may turn it over. -/
theorem direction_direction {v : Vec3 ℝ} (hlong : 0 < (first.conormal v).norm) :
    second.direction (first.direction v) =
      if 0 < first.advance v then
        if second.advance (first.conormal v) < 0 then
          (second.conormal (first.conormal v)).normalize
        else -(second.conormal (first.conormal v)).normalize
      else second.direction (first.conormal v) := by
  have hunit : (first.conormal v).normalize = (first.conormal v).norm⁻¹ • first.conormal v :=
    Vec3.normalize_eq_smul _
  by_cases hturned : 0 < first.advance v
  · have hmoved : first.direction v = -(first.conormal v).normalize := if_pos hturned
    rw [if_pos hturned, hmoved, hunit, ← smul_neg, direction_smul _ (inv_pos.mpr hlong),
      direction_neg]
  · have hmoved : first.direction v = (first.conormal v).normalize := if_neg hturned
    rw [if_neg hturned, hmoved, hunit, direction_smul _ (inv_pos.mpr hlong)]

/-- The second motion moves the origin along a normal, or against it, in the way that both do
together. Or it does not move it along the normal at all. -/
def Concur (first second : Mat4 ℝ) (v : Vec3 ℝ) : Prop :=
  second.advance (first.conormal v) = 0 ∨
    (0 < second.advance (first.conormal v) ↔ 0 < (second.mul first).advance v)

/-- A normal is moved to the same direction by one motion after the other and by both at once if and
only if the two concur on it. -/
theorem direction_comp_eq_iff (hfirst : first.IsAffine) (hdet : second.linearDet ≠ 0) {v : Vec3 ℝ}
    (hlong : 0 < (first.conormal v).norm) (hlong' : 0 < ((second.mul first).conormal v).norm) :
    second.direction (first.direction v) = (second.mul first).direction v ↔
      first.Concur second v := by
  have honce : (second.mul first).direction v = if 0 < (second.mul first).advance v then
      -(second.conormal (first.conormal v)).normalize
      else (second.conormal (first.conormal v)).normalize := by
    rw [direction, conormal_mul hfirst]
  rw [direction_direction hlong, honce, direction, Concur]
  rw [conormal_mul hfirst] at hlong'
  have hne := Vec3.neg_ne_of_norm_eq_one (Vec3.norm_normalize hlong')
  have hadvance := advance_mul hfirst hdet v
  rcases lt_trichotomy (second.advance (first.conormal v)) 0 with hback | hzero | hfront
  · by_cases hboth : 0 < (second.mul first).advance v
    · have hmoved : 0 < first.advance v := by linarith
      simp [hback, hback.ne, hback.not_gt, hboth, hmoved, hne.symm]
    · simp [hback, hback.ne, hback.not_gt, hboth]
  · rw [hzero, add_zero] at hadvance
    simp [hzero, hadvance]
  · by_cases hboth : 0 < (second.mul first).advance v
    · simp [hfront, hfront.not_gt, hboth]
    · have hmoved : ¬ 0 < first.advance v := by linarith
      simp [hfront, hfront.ne', hboth, hmoved, hne]

/-- The motion back concurs on a normal if the first motion does not move the origin against it. -/
theorem concur_iff_of_inverse? (hfirst : first.IsAffine) (hdet : second.linearDet ≠ 0)
    (hinverse : first.inverse? = some second) (v : Vec3 ℝ) :
    first.Concur second v ↔ 0 ≤ first.advance v := by
  have hback : (second.mul first).advance v = 0 := by
    rw [mul_of_inverse? hfirst hinverse]
    simp [Vec3.dot]
  have hadvance := advance_mul hfirst hdet v
  rw [hback] at hadvance
  rw [Concur, hback, iff_false_right (lt_irrefl _), not_lt, or_iff_right_of_imp le_of_eq]
  constructor <;> intro hle <;> linarith

theorem exists_direction_eq (m : Mat4 ℝ) (v : Vec3 ℝ) :
    ∃ k : ℝ, m.direction v = k • m.conormal v := by
  rw [direction, Vec3.normalize_eq_smul]
  split
  · exact ⟨-(m.conormal v).norm⁻¹, (neg_smul _ _).symm⟩
  · exact ⟨_, rfl⟩

/-- No normal of a list becomes too short to be made a unit vector. -/
def KeepsLong (m : Mat4 ℝ) (vs : List (Vec3 ℝ)) : Prop :=
  ∀ normals, m.normalMatrix? = some normals →
    ∀ v ∈ vs, Scalar.epsilon < (normals.mapVector v).norm

variable {m : Mat4 ℝ} {v : Vec3 ℝ} {vs : List (Vec3 ℝ)}

/-- Unit vectors along or across a translation by a unit, or by nothing, stay long. -/
theorem keepsLong_translation {t : Vec3 ℝ} (hunit : ∀ v ∈ vs, v.norm = 1)
    (ht : ∀ v ∈ vs, t.dot v = 0 ∨ |t.dot v| = 1) : (translation t).KeepsLong vs := by
  intro normals hnormals v hv
  rw [norm_mapVector_translation hnormals (hunit v hv) (ht v hv), Scalar.epsilon_real]
  norm_num

theorem direction_translation (t : Vec3 ℝ) (hunit : v.norm = 1) :
    (translation t).direction v = if 0 < t.dot v then -v else v := by
  rw [direction, conormal_translation, Vec3.normalize_of_norm_eq_one hunit, advance_translation]

theorem norm_direction (h : m.IsAffine) (hdet : m.linearDet ≠ 0) (hlong : m.KeepsLong vs)
    (hv : v ∈ vs) : (m.direction v).norm = 1 := by
  have hnormals := normalMatrix?_eq h hdet
  rw [← normalize_mapVector h hdet hnormals]
  exact Vec3.norm_normalize (Scalar.epsilon_pos.trans (hlong _ hnormals v hv))

theorem conormal_pos (h : m.IsAffine) (hdet : m.linearDet ≠ 0) (hlong : m.KeepsLong vs)
    (hv : v ∈ vs) : 0 < (m.conormal v).norm := by
  refine (Vec3.norm_nonneg _).lt_of_ne fun hzero => ?_
  have hunit := norm_direction h hdet hlong hv
  obtain ⟨k, hk⟩ := exists_direction_eq m v
  rw [hk, Vec3.norm_smul, ← hzero, mul_zero] at hunit
  exact one_ne_zero hunit.symm

end Mat4

/-! ### Faces -/

/-- A corner moved by an affine map that its normal stays long under. -/
noncomputable def Vertex.moved (motion : Mat4 ℝ) (v : Vertex ℝ) : Vertex ℝ :=
  ⟨motion.mapPoint v.pos, motion.direction v.normal⟩

namespace Polygon

/-- The normals that a face carries: that of its plane, and those at its corners. -/
def normals (q : Polygon ℝ) : List (Vec3 ℝ) := q.plane.normal :: q.vertices.map Vertex.normal

/-- A face with corners exactly on its plane, and unit normals. -/
structure IsExact (q : Polygon ℝ) : Prop where
  /-- There is a corner. -/
  nonempty : q.vertices ≠ []
  /-- Every corner is exactly on the plane. -/
  on_plane : ∀ x ∈ q.corners, q.plane.signedDistance x = 0
  /-- All normals are unit vectors. -/
  unit : ∀ v ∈ q.normals, v.norm = 1

theorem IsExact.exists_mem_corners {q : Polygon ℝ} (hq : q.IsExact) : ∃ x, x ∈ q.corners := by
  refine List.exists_mem_of_ne_nil _ fun hnil => ?_
  exact hq.nonempty (List.map_eq_nil_iff.mp hnil)

section

variable {motion matrix : Mat4 ℝ} {q : Polygon ℝ} (hq : q.IsExact) (h : motion.IsAffine)
  (hdet : motion.linearDet ≠ 0)

include hq h hdet

/-- The corners of an exact face are equally far along the direction that its normal is moved to. -/
theorem IsExact.dot_direction {x y : Vec3 ℝ} (hx : x ∈ q.corners) (hy : y ∈ q.corners) :
    (motion.direction q.plane.normal).dot (motion.mapPoint x) =
      (motion.direction q.plane.normal).dot (motion.mapPoint y) := by
  have hlevel : q.plane.normal.dot x = q.plane.normal.dot y :=
    (sub_eq_zero.mp (hq.on_plane x hx)).trans (sub_eq_zero.mp (hq.on_plane y hy)).symm
  obtain ⟨k, hk⟩ := Mat4.exists_direction_eq motion q.plane.normal
  rw [hk, Vec3.dot_comm, Vec3.dot_smul, Vec3.dot_comm, Mat4.dot_conormal_mapPoint h hdet, hlevel,
    ← Mat4.dot_conormal_mapPoint h hdet, Vec3.dot_comm, ← Vec3.dot_smul, Vec3.dot_comm]

variable (hmatrix : motion.normalMatrix? = some matrix) (hlong : motion.KeepsLong q.normals)

include hmatrix hlong

/-- What becomes of an exact face. Its plane goes through any corner. -/
theorem IsExact.transform_eq {x : Vec3 ℝ} (hx : x ∈ q.corners) :
    q.transform motion matrix (motion.linearDet < 0) =
      ⟨orderedBy motion.linearDet (q.vertices.map (Vertex.moved motion)),
        ⟨motion.direction q.plane.normal,
          (motion.direction q.plane.normal).dot (motion.mapPoint x)⟩⟩ := by
  have hvertices : q.vertices.map (Vertex.transform motion matrix) =
      q.vertices.map (Vertex.moved motion) := by
    refine List.map_congr_left fun v hv => ?_
    have hv := hlong _ hmatrix v.normal (.tail _ (List.mem_map_of_mem hv))
    rw [Vertex.transform, Vec3.normalize?_of_lt hv, Mat4.normalize_mapVector h hdet hmatrix]
    rfl
  obtain ⟨y, hy, hplane⟩ := exists_transform_plane_eq motion matrix hq.nonempty
  rw [Plane.transform_eq h hdet hmatrix (hlong _ hmatrix _ List.mem_cons_self),
    hq.dot_direction h hdet hy hx] at hplane
  rw [← hplane, orderedBy, ← hvertices]
  simp [Polygon.transform]

/-- The normals of an exact face are moved to their directions. -/
theorem IsExact.mem_normals_transform {v : Vec3 ℝ} :
    v ∈ (q.transform motion matrix (motion.linearDet < 0)).normals ↔
      ∃ u ∈ q.normals, motion.direction u = v := by
  obtain ⟨x, hx⟩ := hq.exists_mem_corners
  rw [hq.transform_eq h hdet hmatrix hlong hx]
  simp only [normals, map_orderedBy, List.mem_cons, mem_orderedBy, List.mem_map, exists_eq_or_imp,
    exists_exists_and_eq_and, Vertex.moved, eq_comm (a := v)]

/-- An exact face stays one. -/
theorem IsExact.transform : (q.transform motion matrix (motion.linearDet < 0)).IsExact := by
  obtain ⟨x, hx⟩ := hq.exists_mem_corners
  refine ⟨?_, ?_, ?_⟩
  · intro hnil
    have hmem : motion.mapPoint x ∈ _ := mapPoint_mem_corners_transform matrix hx
    simp [corners, hnil] at hmem
  · intro y hy
    rw [transform_corners, mem_orderedBy] at hy
    obtain ⟨z, hz, rfl⟩ := List.mem_map.mp hy
    rw [hq.transform_eq h hdet hmatrix hlong hz]
    exact sub_self _
  · intro v hv
    obtain ⟨u, hu, rfl⟩ := (hq.mem_normals_transform h hdet hmatrix hlong).mp hv
    exact Mat4.norm_direction h hdet hlong hu

end

/-- The corners come to the same places by one motion after the other and by both at once, and stay
in the same order. -/
theorem corners_transform_transform {first second : Mat4 ℝ} (hfirst : first.IsAffine)
    (hsecond : second.IsAffine) (hdet : first.linearDet ≠ 0) (hdet' : second.linearDet ≠ 0)
    (matrix matrix' both : Mat4 ℝ) (q : Polygon ℝ) :
    ((q.transform first matrix (first.linearDet < 0)).transform second matrix'
        (second.linearDet < 0)).corners =
      (q.transform (second.mul first) both ((second.mul first).linearDet < 0)).corners := by
  have hpoints : (q.corners.map first.mapPoint).map second.mapPoint =
      q.corners.map (second.mul first).mapPoint := by
    rw [List.map_map]
    exact List.map_congr_left fun p _ => (Mat4.mapPoint_mul hsecond hfirst p).symm
  rw [transform_corners, transform_corners, transform_corners, map_orderedBy,
    orderedBy_mul hdet hdet', ← Mat4.linearDet_mul hfirst, hpoints]

/-- An exact face is moved to the same face by one motion after the other and by both at once if and
only if each of its normals comes to the same direction. -/
theorem IsExact.transform_transform_eq_iff {first second matrix matrix' both : Mat4 ℝ}
    {q : Polygon ℝ} (hq : q.IsExact) (hfirst : first.IsAffine) (hsecond : second.IsAffine)
    (hdet : first.linearDet ≠ 0) (hdet' : second.linearDet ≠ 0)
    (hmatrix : first.normalMatrix? = some matrix) (hmatrix' : second.normalMatrix? = some matrix')
    (hboth : (second.mul first).normalMatrix? = some both) (hlong : first.KeepsLong q.normals)
    (hlong' : second.KeepsLong (q.transform first matrix (first.linearDet < 0)).normals)
    (hlong'' : (second.mul first).KeepsLong q.normals) :
    (q.transform first matrix (first.linearDet < 0)).transform second matrix'
        (second.linearDet < 0) =
      q.transform (second.mul first) both ((second.mul first).linearDet < 0) ↔
    ∀ v ∈ q.normals, first.Concur second v := by
  have haffine := hsecond.mul hfirst
  have hdet'' := Mat4.linearDet_mul_ne_zero hfirst hdet hdet'
  obtain ⟨x, hx⟩ := hq.exists_mem_corners
  have hcorner (v : Vertex ℝ) : (v.moved first).moved second = v.moved (second.mul first) ↔
      second.direction (first.direction v.normal) = (second.mul first).direction v.normal := by
    simp [Vertex.moved, Mat4.mapPoint_mul hsecond hfirst]
  have hnormals : (∀ v ∈ q.normals, second.direction (first.direction v) =
      (second.mul first).direction v) ↔ ∀ v ∈ q.normals, first.Concur second v :=
    forall₂_congr fun v hv => Mat4.direction_comp_eq_iff hfirst hdet'
      (Mat4.conormal_pos hfirst hdet hlong hv) (Mat4.conormal_pos haffine hdet'' hlong'' hv)
  have htwice := (hq.transform hfirst hdet hmatrix hlong).transform_eq hsecond hdet' hmatrix' hlong'
    (mapPoint_mem_corners_transform matrix hx)
  rw [← hnormals, htwice, hq.transform_eq hfirst hdet hmatrix hlong hx,
    hq.transform_eq haffine hdet'' hboth hlong'' hx]
  simp only [map_orderedBy, orderedBy_mul hdet hdet', Mat4.linearDet_mul hfirst, List.map_map,
    mk.injEq, orderedBy_inj, List.map_inj_left, Function.comp_apply, hcorner, Plane.mk.injEq,
    Mat4.mapPoint_mul hsecond hfirst, normals, List.forall_mem_cons, List.forall_mem_map]
  constructor
  · intro hsame
    obtain ⟨hvertices, hplane, -⟩ := hsame
    exact ⟨hplane, hvertices⟩
  · intro hsame
    obtain ⟨hplane, hvertices⟩ := hsame
    exact ⟨hvertices, hplane, by rw [hplane]⟩

/-- An exact face that is not moved stays as it is. -/
theorem IsExact.transform_zero {q : Polygon ℝ} (hq : q.IsExact) {matrix : Mat4 ℝ}
    (hmatrix : (Mat4.translation 0).normalMatrix? = some matrix) :
    q.transform (Mat4.translation 0) matrix ((Mat4.translation (0 : Vec3 ℝ)).linearDet < 0) =
      q := by
  have haffine := Mat4.isAffine_translation 0
  have hzero (v : Vec3 ℝ) : (0 : Vec3 ℝ).dot v = 0 := by simp [Vec3.dot]
  have hlong : (Mat4.translation 0).KeepsLong q.normals :=
    Mat4.keepsLong_translation hq.unit fun v _ => .inl (hzero v)
  have hdirection : ∀ v ∈ q.normals, (Mat4.translation 0).direction v = v := by
    intro v hv
    rw [Mat4.direction_translation _ (hq.unit v hv), if_neg (hzero v).not_gt]
  have hpoint (p : Vec3 ℝ) : (Mat4.translation 0).mapPoint p = p := by
    rw [Mat4.mapPoint_translation, add_zero]
  have hcorners : q.vertices.map (Vertex.moved (Mat4.translation 0)) = q.vertices := by
    refine (List.map_congr_left fun v hv => ?_).trans (List.map_id _)
    rw [Vertex.moved, hpoint, hdirection _ (.tail _ (List.mem_map_of_mem hv))]
    rfl
  obtain ⟨x, hx⟩ := hq.exists_mem_corners
  have hlevel : q.plane.normal.dot x = q.plane.w := sub_eq_zero.mp (hq.on_plane x hx)
  rw [hq.transform_eq haffine (by simp) hmatrix hlong hx, hcorners,
    hdirection _ List.mem_cons_self, hpoint, hlevel, orderedBy, Mat4.linearDet_translation,
    if_neg one_pos.not_gt]

/-! ### A square that is moved and moved back -/

theorem normals_groundSquare : groundSquare.normals =
    [Vec3.unitZ, Vec3.unitX, Vec3.unitX, Vec3.unitX, Vec3.unitX] := by
  rw [normals, groundSquare_plane]
  rfl

theorem isExact_groundSquare : groundSquare.IsExact := by
  refine ⟨by simp [groundSquare, ofVertices], ?_, ?_⟩
  · rw [groundSquare_plane]
    simp [Plane.signedDistance, corners, groundSquare, ofVertices, Vec3.unitZ, Vec3.dot]
  · simp [normals_groundSquare, Vec3.unitZ, Vec3.unitX, Vec3.norm, Vec3.dot]

/-- A motion along the third axis is along or across the normals of the square. -/
theorem dot_normals_groundSquare {height : ℝ} (h : |height| = 1) :
    ∀ v ∈ groundSquare.normals, (⟨0, 0, height⟩ : Vec3 ℝ).dot v = 0 ∨
      |(⟨0, 0, height⟩ : Vec3 ℝ).dot v| = 1 := by
  simp [normals_groundSquare, Vec3.unitZ, Vec3.unitX, Vec3.dot, h]

/-- The normals of the square stay long when it is moved along the third axis twice. -/
theorem keepsLong_groundSquare {height height' : ℝ} (h : |height| = 1) (h' : |height'| = 1) :
    (Mat4.translation ⟨0, 0, height⟩).KeepsLong groundSquare.normals ∧
    ∀ matrix, (Mat4.translation ⟨0, 0, height⟩).normalMatrix? = some matrix →
      (Mat4.translation ⟨0, 0, height'⟩).KeepsLong
        (groundSquare.transform (Mat4.translation ⟨0, 0, height⟩) matrix
          ((Mat4.translation (⟨0, 0, height⟩ : Vec3 ℝ)).linearDet < 0)).normals := by
  have hexact := isExact_groundSquare
  have haffine := Mat4.isAffine_translation ⟨0, 0, height⟩
  have hlong := Mat4.keepsLong_translation hexact.unit (dot_normals_groundSquare h)
  refine ⟨hlong, fun matrix hmatrix => ?_⟩
  have hmoved := hexact.transform haffine (by simp) hmatrix hlong
  refine Mat4.keepsLong_translation hmoved.unit fun v hv => ?_
  obtain ⟨u, hu, rfl⟩ := (hexact.mem_normals_transform haffine (by simp) hmatrix hlong).mp hv
  rw [Mat4.direction_translation _ (hexact.unit u hu)]
  have hdot := dot_normals_groundSquare h' u hu
  split
  · rwa [Vec3.dot_neg, neg_eq_zero, abs_neg]
  · exact hdot

theorem keepsLong_zero_groundSquare : (Mat4.translation 0).KeepsLong groundSquare.normals :=
  Mat4.keepsLong_translation isExact_groundSquare.unit fun v _ => .inl (by simp [Vec3.dot])

end Polygon

/-! ### Meshes -/

namespace Mesh

/-- The normals that the faces of a mesh carry. -/
def normals (m : Mesh ℝ) : List (Vec3 ℝ) := m.polygons.flatMap Polygon.normals

theorem keepsLong_of_mem {m : Mesh ℝ} {motion : Mat4 ℝ} {q : Polygon ℝ}
    (h : motion.KeepsLong m.normals) (hq : q ∈ m.polygons) : motion.KeepsLong q.normals :=
  fun matrix hmatrix v hv => h matrix hmatrix v (List.mem_flatMap.mpr ⟨q, hq, hv⟩)

/-- **One motion after the other.** A mesh of exact faces is moved by two affine maps that do not
flatten space, and no normal becomes too short on the way. The corners come to where one motion by
the product takes them, in the same order. The faces are the same if and only if the two motions
concur on each of their normals. If the second motion is the inverse of the first one, then the
product leaves the faces as they were, and the two motions do so if and only if the first one moves
the origin against no normal. -/
theorem transform_comp {m : Mesh ℝ} {first second : Mat4 ℝ} (hexact : ∀ q ∈ m.polygons, q.IsExact)
    (hfirst : first.IsAffine) (hsecond : second.IsAffine) (hdet : first.linearDet ≠ 0)
    (hdet' : second.linearDet ≠ 0) (hlong : first.KeepsLong m.normals)
    (hlong' : ∀ moved, m.transform first = .ok moved → second.KeepsLong moved.normals)
    (hlong'' : (second.mul first).KeepsLong m.normals) : ∃ moved twice once,
      m.transform first = .ok moved ∧ moved.transform second = .ok twice ∧
      m.transform (second.mul first) = .ok once ∧
      twice.polygons.map Polygon.corners = once.polygons.map Polygon.corners ∧
      (twice.polygons = once.polygons ↔ ∀ v ∈ m.normals, first.Concur second v) ∧
      (first.inverse? = some second → once.polygons = m.polygons ∧
        (twice.polygons = m.polygons ↔ ∀ v ∈ m.normals, 0 ≤ first.advance v)) := by
  have haffine := hsecond.mul hfirst
  have hdet'' := Mat4.linearDet_mul_ne_zero hfirst hdet hdet'
  obtain ⟨matrix, hmatrix, hmoved⟩ := exists_transform_eq_ok m hfirst hdet
  set moved := ofPolygons (m.polygons.map (Polygon.transform first matrix (first.linearDet < 0)))
  obtain ⟨matrix', hmatrix', htwice⟩ := exists_transform_eq_ok moved hsecond hdet'
  obtain ⟨both, hboth, honce⟩ := exists_transform_eq_ok m haffine hdet''
  have hfaces : (m.polygons.map (Polygon.transform first matrix (first.linearDet < 0))).map
        (Polygon.transform second matrix' (second.linearDet < 0)) =
      m.polygons.map
        (Polygon.transform (second.mul first) both ((second.mul first).linearDet < 0)) ↔
      ∀ v ∈ m.normals, first.Concur second v := by
    rw [List.map_map, List.map_inj_left, normals, List.forall_mem_flatMap]
    refine forall₂_congr fun q hq => ?_
    exact (hexact q hq).transform_transform_eq_iff hfirst hsecond hdet hdet' hmatrix hmatrix' hboth
      (keepsLong_of_mem hlong hq) (keepsLong_of_mem (hlong' moved hmoved) (List.mem_map_of_mem hq))
      (keepsLong_of_mem hlong'' hq)
  refine ⟨moved, _, _, hmoved, htwice, honce, ?corners, hfaces, ?inverse⟩
  case corners =>
    simp only [moved, ofPolygons_polygons, List.map_map]
    refine List.map_congr_left fun q _ => ?_
    exact Polygon.corners_transform_transform hfirst hsecond hdet hdet' matrix matrix' both q
  case inverse =>
    intro hinverse
    have hzero := Mat4.mul_of_inverse? hfirst hinverse
    have hsame : m.polygons.map
        (Polygon.transform (second.mul first) both ((second.mul first).linearDet < 0)) =
        m.polygons := by
      refine (List.map_congr_left fun q hq => ?_).trans (List.map_id _)
      rw [hzero] at hboth ⊢
      exact (hexact q hq).transform_zero hboth
    refine ⟨hsame, ?_⟩
    rw [hsame] at hfaces
    refine hfaces.trans (forall₂_congr fun v _ => ?_)
    exact Mat4.concur_iff_of_inverse? hfirst hdet' hinverse v

/-! ### The square as a mesh -/

/-- The square by itself. -/
noncomputable def groundSquare : Mesh ℝ := ofPolygons [Polygon.groundSquare]

theorem transform_groundSquare (height : ℝ) : ∃ matrix,
    (Mat4.translation ⟨0, 0, height⟩).normalMatrix? = some matrix ∧
    groundSquare.transform (Mat4.translation ⟨0, 0, height⟩) = .ok (ofPolygons
      [Polygon.groundSquare.transform (Mat4.translation ⟨0, 0, height⟩) matrix
        ((Mat4.translation (⟨0, 0, height⟩ : Vec3 ℝ)).linearDet < 0)]) :=
  exists_transform_eq_ok groundSquare (Mat4.isAffine_translation _) (by simp)

theorem inverse?_vertical (height : ℝ) : (Mat4.translation ⟨0, 0, height⟩).inverse? =
    some (Mat4.translation ⟨0, 0, -height⟩) := by
  rw [Mat4.inverse?_translation]
  exact congrArg (fun t => some (Mat4.translation t)) (by ext <;> simp)

theorem mul_vertical (height : ℝ) : (Mat4.translation ⟨0, 0, -height⟩).mul
    (Mat4.translation ⟨0, 0, height⟩) = Mat4.translation 0 :=
  Mat4.mul_of_inverse? (Mat4.isAffine_translation _) (inverse?_vertical height)

/-- A square that is moved up and then down is what it was. One that is moved down and then up is
turned over. -/
theorem transform_comp_groundSquare : ∃ (m : Mesh ℝ) (up down : Mat4 ℝ)
    (raised back lowered turned : Mesh ℝ), m = groundSquare ∧
    up = Mat4.translation ⟨0, 0, 1⟩ ∧ down = Mat4.translation ⟨0, 0, -1⟩ ∧
    up.inverse? = some down ∧ down.inverse? = some up ∧
    m.transform up = .ok raised ∧ raised.transform down = .ok back ∧ back.polygons = m.polygons ∧
    m.transform down = .ok lowered ∧ lowered.transform up = .ok turned ∧
    turned.polygons ≠ m.polygons := by
  have hnormals : groundSquare.normals = Polygon.groundSquare.normals := by
    simp [groundSquare, normals]
  have hexact : ∀ q ∈ groundSquare.polygons, q.IsExact := by
    simpa [groundSquare] using Polygon.isExact_groundSquare
  have hmoved (height : ℝ) (h : |height| = 1) (moved : Mesh ℝ)
      (hm : groundSquare.transform (Mat4.translation ⟨0, 0, height⟩) = .ok moved) :
      (Mat4.translation ⟨0, 0, -height⟩).KeepsLong moved.normals := by
    obtain ⟨matrix, hmatrix, hsquare⟩ := transform_groundSquare height
    obtain rfl := Except.ok.inj (hsquare.symm.trans hm)
    have hlong := (Polygon.keepsLong_groundSquare h ((abs_neg height).trans h)).2 matrix hmatrix
    simpa [normals] using hlong
  have hadvance (height : ℝ) : (∀ v ∈ groundSquare.normals,
      0 ≤ (Mat4.translation ⟨0, 0, height⟩).advance v) ↔ 0 ≤ height := by
    simp [hnormals, Polygon.normals_groundSquare, Vec3.unitZ, Vec3.unitX, Vec3.dot]
  have hround (height : ℝ) (h : |height| = 1) := transform_comp hexact
    (Mat4.isAffine_translation ⟨0, 0, height⟩) (Mat4.isAffine_translation ⟨0, 0, -height⟩)
    (by simp) (by simp) (hnormals ▸ (Polygon.keepsLong_groundSquare h h).1) (hmoved height h)
    (mul_vertical height ▸ hnormals ▸ Polygon.keepsLong_zero_groundSquare)
  obtain ⟨raised, back, _, hraised, hback, _, _, _, hup⟩ := hround 1 (by simp)
  obtain ⟨lowered, turned, _, hlowered, hturned, _, _, _, hdown⟩ := hround (-1) (by simp)
  have hsame := (hup (inverse?_vertical 1)).2
  have hother := (hdown (inverse?_vertical (-1))).2
  rw [hadvance] at hsame hother
  rw [neg_neg] at hturned
  refine ⟨_, _, _, raised, back, lowered, turned, rfl, rfl, rfl, inverse?_vertical 1, ?_, hraised,
    hback, hsame.mpr zero_le_one, hlowered, hturned, ?_⟩
  · simpa using inverse?_vertical (-1)
  · rw [Ne, hother]
    norm_num

/-- Two motions need not come to what their product does, though nothing is too short on the way: a
square that is moved down and then up is not what it was. -/
theorem exists_transform_transform_ne : ∃ (m moved twice once : Mesh ℝ) (first second : Mat4 ℝ),
    m = groundSquare ∧ first = Mat4.translation ⟨0, 0, -1⟩ ∧
    second = Mat4.translation ⟨0, 0, 1⟩ ∧ (∀ q ∈ m.polygons, q.IsExact) ∧ first.IsAffine ∧
    second.IsAffine ∧ first.linearDet ≠ 0 ∧ second.linearDet ≠ 0 ∧ first.inverse? = some second ∧
    m.transform first = .ok moved ∧ moved.transform second = .ok twice ∧
    m.transform (second.mul first) = .ok once ∧ first.KeepsLong m.normals ∧
    second.KeepsLong moved.normals ∧ (second.mul first).KeepsLong m.normals ∧
    once.polygons = m.polygons ∧ twice.polygons ≠ once.polygons := by
  set first : Mat4 ℝ := Mat4.translation ⟨0, 0, -1⟩
  set second : Mat4 ℝ := Mat4.translation ⟨0, 0, 1⟩
  have hfirst : first.IsAffine := Mat4.isAffine_translation _
  have hsecond : second.IsAffine := Mat4.isAffine_translation _
  have hdet : first.linearDet ≠ 0 := by simp [first]
  have hdet' : second.linearDet ≠ 0 := by simp [second]
  have hinverse : first.inverse? = some second := by simpa using inverse?_vertical (-1)
  have hproduct : second.mul first = Mat4.translation 0 := Mat4.mul_of_inverse? hfirst hinverse
  have hexact := Polygon.isExact_groundSquare
  have hback : |(-1 : ℝ)| = 1 := by simp
  obtain ⟨hlong, hlong'⟩ := Polygon.keepsLong_groundSquare hback abs_one
  have hlong'' : (second.mul first).KeepsLong Polygon.groundSquare.normals :=
    hproduct ▸ Polygon.keepsLong_zero_groundSquare
  obtain ⟨matrix, hmatrix, hmoved⟩ := exists_transform_eq_ok groundSquare hfirst hdet
  obtain ⟨matrix', hmatrix', htwice⟩ := exists_transform_eq_ok (ofPolygons
    [Polygon.groundSquare.transform first matrix (first.linearDet < 0)]) hsecond hdet'
  obtain ⟨both, hboth, honce⟩ := exists_transform_eq_ok groundSquare (hsecond.mul hfirst)
    (by rw [hproduct, Mat4.linearDet_translation]; exact one_ne_zero)
  have hsame : Polygon.groundSquare.transform (second.mul first) both
      ((second.mul first).linearDet < 0) = Polygon.groundSquare := by
    rw [hproduct] at hboth ⊢
    exact hexact.transform_zero hboth
  refine ⟨groundSquare, _, _, _, first, second, rfl, rfl, rfl, by simpa [groundSquare] using hexact,
    hfirst, hsecond, hdet, hdet', hinverse, hmoved, htwice, honce, by simpa [normals, groundSquare],
    by simpa [normals, groundSquare, first, second] using hlong' matrix hmatrix,
    by simpa [normals, groundSquare], by simpa [groundSquare] using hsame, ?_⟩
  intro htogether
  have hcriterion := hexact.transform_transform_eq_iff hfirst hsecond hdet hdet' hmatrix hmatrix'
    hboth hlong (hlong' matrix hmatrix) hlong''
  have hnormal := hcriterion.mp (List.cons.inj htogether).1 Vec3.unitZ
    (by simp [Polygon.normals_groundSquare])
  rw [Mat4.Concur, hproduct] at hnormal
  simp [first, second, Vec3.unitZ, Vec3.dot] at hnormal

end Mesh

end Solids
