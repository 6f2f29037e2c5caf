import Solids.Proofs.MovedVolume
/-!
# Solids.Proofs.MovedPlane

**The plane of a moved face.** A face carries the plane that was derived from its outline, and when
the face is moved that plane is moved by itself. The outline could be asked again. The two ways
come to the same plane, or to this plane turned over: the matrix for normals divides by a number
that is negative where the origin is moved to the front, and the normal then points into the solid.

Main definition: `Mat4.direction` — the unit vector that a normal is moved to.

Main statements:

* `Plane.transform_eq` — what is made of a plane that goes through a point;
* `Polygon.transform_plane` — what is made of the plane of a face, compared with its new outline.
-/

namespace Solids

open Outline

/-! ### Unit vectors -/

namespace Vec3

variable {v : Vec3 ℝ} {k : ℝ}

theorem normalize_eq_smul (v : Vec3 ℝ) : v.normalize = v.norm⁻¹ • v := divide_eq_smul v v.norm

theorem norm_smul (k : ℝ) (v : Vec3 ℝ) : (k • v).norm = |k| * v.norm := by
  have hself : (k • v).dot (k • v) = k * k * v.dot v := by
    rw [dot_smul, dot_comm, dot_smul, mul_assoc]
  rw [norm, hself, Scalar.sqrt_real, Real.sqrt_mul (mul_self_nonneg k), Real.sqrt_mul_self_eq_abs]
  rfl

@[simp] theorem norm_neg (v : Vec3 ℝ) : (-v).norm = v.norm := by
  rw [← neg_one_smul ℝ v, norm_smul, abs_neg, abs_one, one_mul]

theorem normalize_smul (hk : 0 < k) (v : Vec3 ℝ) : (k • v).normalize = v.normalize := by
  rw [normalize_eq_smul, normalize_eq_smul, norm_smul, abs_of_pos hk, smul_smul, mul_inv_rev,
    mul_assoc, inv_mul_cancel₀ hk.ne', mul_one]

@[simp] theorem normalize_neg (v : Vec3 ℝ) : (-v).normalize = -v.normalize := by
  rw [normalize_eq_smul, normalize_eq_smul, norm_neg, smul_neg]

theorem norm_normalize (h : 0 < v.norm) : v.normalize.norm = 1 := by
  rw [normalize_eq_smul, norm_smul, abs_of_pos (inv_pos.mpr h), inv_mul_cancel₀ h.ne']

theorem dot_self_of_norm_eq_one (h : v.norm = 1) : v.dot v = 1 := by
  rw [← norm_mul_self, h, one_mul]

theorem normalize_of_norm_eq_one (h : v.norm = 1) : v.normalize = v := by
  rw [normalize_eq_smul, h, inv_one, one_smul]

/-- A unit vector is not its own opposite. -/
theorem neg_ne_of_norm_eq_one (h : v.norm = 1) : -v ≠ v := by
  intro hopposite
  have hself := congrArg v.dot hopposite
  rw [dot_neg, dot_self_of_norm_eq_one h] at hself
  norm_num at hself

theorem normalize?_of_lt (h : Scalar.epsilon < v.norm) : v.normalize? = some v.normalize :=
  if_neg (not_le.mpr h)

theorem normalize?_of_le (h : v.norm ≤ Scalar.epsilon) : v.normalize? = none := if_pos h

end Vec3

/-! ### Normals and planes under affine maps -/

namespace Mat4

variable {m normals : Mat4 ℝ} {v : Vec3 ℝ}

/-- The unit vector that a normal is moved to. Where the origin is moved along what should become of
the normal, it is the opposite of that. -/
noncomputable def direction (m : Mat4 ℝ) (v : Vec3 ℝ) : Vec3 ℝ :=
  if 0 < m.advance v then -(m.conormal v).normalize else (m.conormal v).normalize

theorem normalize_mapVector (h : m.IsAffine) (hdet : m.linearDet ≠ 0)
    (hnormals : m.normalMatrix? = some normals) (v : Vec3 ℝ) :
    (normals.mapVector v).normalize = m.direction v := by
  rw [mapVector_of_normalMatrix? h hdet hnormals, direction]
  rcases lt_trichotomy (m.advance v) 0 with hback | hzero | hfront
  · rw [if_neg hback.ne, if_neg hback.not_gt,
      Vec3.normalize_smul (inv_pos.mpr (neg_pos.mpr hback))]
  · rw [if_pos hzero, if_neg hzero.not_gt]
  · rw [if_neg hfront.ne', if_pos hfront, inv_neg, neg_smul, Vec3.normalize_neg,
      Vec3.normalize_smul (inv_pos.mpr hfront)]

/-- A unit normal along or across a translation by a unit stays one. -/
theorem norm_mapVector_translation {t : Vec3 ℝ}
    (hnormals : (translation t).normalMatrix? = some normals) (hv : v.norm = 1)
    (ht : t.dot v = 0 ∨ |t.dot v| = 1) : (normals.mapVector v).norm = 1 := by
  rw [mapVector_of_normalMatrix? (isAffine_translation t) (by simp) hnormals, advance_translation,
    conormal_translation]
  split
  · exact hv
  · next hne =>
    rw [Vec3.norm_smul, abs_inv, abs_neg, ht.resolve_left hne, hv, inv_one, one_mul]

end Mat4

namespace Plane

variable {motion normals : Mat4 ℝ} {p : Plane ℝ} {point : Vec3 ℝ}

/-- A plane whose normal does not become too short goes through the image of the point. -/
theorem transform_eq (h : motion.IsAffine) (hdet : motion.linearDet ≠ 0)
    (hnormals : motion.normalMatrix? = some normals)
    (hlong : Scalar.epsilon < (normals.mapVector p.normal).norm) :
    p.transform motion normals point = ⟨motion.direction p.normal,
      (motion.direction p.normal).dot (motion.mapPoint point)⟩ := by
  have hunit : (motion.direction p.normal).norm = 1 := by
    rw [← Mat4.normalize_mapVector h hdet hnormals]
    exact Vec3.norm_normalize (Scalar.epsilon_pos.trans hlong)
  rw [transform, Vec3.normalize?_of_lt hlong, Mat4.normalize_mapVector h hdet hnormals]
  show through _ _ = _
  rw [through, Vec3.normalize_of_norm_eq_one hunit]

theorem transform_of_le (hshort : (normals.mapVector p.normal).norm ≤ Scalar.epsilon) :
    p.transform motion normals point = p := by
  rw [transform, Vec3.normalize?_of_le hshort]

/-- The plane that is derived from an outline is not its own other side. -/
theorem flip_ofVertices_ne (l : List (Vertex ℝ)) : (ofVertices l).flip ≠ ofVertices l := by
  have hground : (ground : Plane ℝ).normal.norm = 1 := by
    simp [ground, Vec3.unitZ, Vec3.norm, Vec3.dot]
  have hunit : (ofVertices l).normal.norm = 1 := by
    unfold ofVertices
    split
    · exact hground
    · by_cases hlong : Scalar.epsilon < (outlineNormal l).norm
      · rw [Vec3.normalize?_of_lt hlong]
        exact Vec3.norm_normalize (Scalar.epsilon_pos.trans hlong)
      · rw [Vec3.normalize?_of_le (not_lt.mp hlong)]
        exact hground
  intro hflip
  exact Vec3.neg_ne_of_norm_eq_one hunit (congrArg Plane.normal hflip)

/-- The plane that is derived from a planar outline that is large enough. It goes through any
corner. -/
theorem ofVertices_eq {l : List (Vertex ℝ)} (hthree : 3 ≤ l.length)
    (hplanar : IsPlanar (l.map Vertex.pos)) (hlarge : Scalar.epsilon < (outlineNormal l).norm)
    {x : Vec3 ℝ} (hx : x ∈ l.map Vertex.pos) :
    ofVertices l = ⟨(outlineNormal l).normalize, (outlineNormal l).normalize.dot x⟩ := by
  have hpos := Scalar.epsilon_pos.trans hlarge
  have hunit : (outlineNormal l).normalize.dot (outlineNormal l).normalize = 1 :=
    Vec3.dot_self_of_norm_eq_one (Vec3.norm_normalize hpos)
  have hnormal : outlineNormal l = (outlineNormal l).norm • (outlineNormal l).normalize := by
    rw [Vec3.normalize_eq_smul, smul_inv_smul₀ hpos.ne']
  refine Polygon.ofVertices_plane hthree hlarge hunit hnormal fun v hv => ?_
  have hlevel := hplanar.dot_newell_eq (List.mem_map_of_mem hv) hx
  rw [← outlineNormal_eq_newell, Vec3.dot_comm, Vec3.dot_comm x] at hlevel
  rw [Vec3.normalize_eq_smul, Vec3.dot_comm, Vec3.dot_smul, Vec3.dot_comm, hlevel,
    Vec3.dot_comm (_ • _), Vec3.dot_smul, Vec3.dot_comm x]

end Plane

/-! ### Faces -/

namespace Polygon

variable {motion normals : Mat4 ℝ} {q : Polygon ℝ}

/-- The plane of a face is moved with a corner. -/
theorem exists_transform_plane_eq (motion normals : Mat4 ℝ) (hne : q.vertices ≠ []) :
    ∃ x ∈ q.corners, (q.transform motion normals (motion.linearDet < 0)).plane =
      q.plane.transform motion normals x := by
  obtain ⟨vertices, plane⟩ := q
  cases vertices with
  | nil => exact absurd rfl hne
  | cons first rest => exact ⟨first.pos, List.mem_cons_self, rfl⟩

section Moved

variable {r : Polygon ℝ} (hplanar : IsPlanar q.corners) (hthree : 3 ≤ q.vertices.length)
  (hplane : q.plane = Plane.ofVertices q.vertices) (hlarge : q.IsLarge) (h : motion.IsAffine)
  (hdet : motion.linearDet ≠ 0)
  (hr : r = q.transform motion normals (motion.linearDet < 0)) (hmoved : r.IsLarge)

include hplanar hthree hplane hlarge h hdet hr hmoved

/-- The plane that is derived from the new outline of a face: its normal is what becomes of the
normal of the old one. -/
theorem ofVertices_transform {x : Vec3 ℝ} (hx : x ∈ r.corners) :
    Plane.ofVertices r.vertices = ⟨(motion.conormal q.plane.normal).normalize,
      (motion.conormal q.plane.normal).normalize.dot x⟩ := by
  obtain ⟨y, hy⟩ : ∃ y, y ∈ q.corners := by
    refine List.exists_mem_of_ne_nil _ (List.ne_nil_of_length_pos ?_)
    rw [corners, List.length_map]
    omega
  have hlength : 3 ≤ r.vertices.length := by
    rw [hr, transform]
    split <;> simpa using hthree
  have hrplanar : IsPlanar r.corners := hr ▸ isPlanar_transform h hdet hplanar
  have hpos : 0 < (Plane.outlineNormal q.vertices).norm := Scalar.epsilon_pos.trans hlarge
  have hnormal : q.plane.normal = (Plane.outlineNormal q.vertices).normalize := by
    rw [hplane, Plane.ofVertices_eq hthree hplanar hlarge hy]
  have hnewell : newell q.corners = (Plane.outlineNormal q.vertices).norm • q.plane.normal := by
    rw [hnormal, Vec3.normalize_eq_smul, smul_inv_smul₀ hpos.ne', Plane.outlineNormal_eq_newell]
    rfl
  have houtline : Plane.outlineNormal r.vertices =
      (|motion.linearDet| * (Plane.outlineNormal q.vertices).norm) •
        motion.conormal q.plane.normal := by
    rw [Plane.outlineNormal_eq_newell, mul_smul, ← Mat4.conormal_smul, ← hnewell, hr]
    exact newell_transform h hdet q
  rw [Plane.ofVertices_eq hlength hrplanar hmoved hx, houtline,
    Vec3.normalize_smul (mul_pos (abs_pos.mpr hdet) hpos)]

variable (hnormals : motion.normalMatrix? = some normals)

include hnormals

/-- What is made of the plane of a face, compared with the plane that its new outline gives. -/
theorem transform_plane (hlong : Scalar.epsilon < (normals.mapVector q.plane.normal).norm) :
    r.plane = if 0 < motion.advance q.plane.normal then (Plane.ofVertices r.vertices).flip
      else Plane.ofVertices r.vertices := by
  obtain ⟨x, hx, hmap⟩ := exists_transform_plane_eq motion normals
    (List.ne_nil_of_length_pos (by omega : 0 < q.vertices.length))
  have hx' : motion.mapPoint x ∈ r.corners := hr ▸ mapPoint_mem_corners_transform normals hx
  rw [ofVertices_transform hplanar hthree hplane hlarge h hdet hr hmoved hx', hr, hmap,
    Plane.transform_eq h hdet hnormals hlong, Mat4.direction]
  by_cases hfront : 0 < motion.advance q.plane.normal
  · rw [if_pos hfront, if_pos hfront, Vec3.neg_dot]
    rfl
  · rw [if_neg hfront, if_neg hfront]

/-- **The plane of a moved face.** A planar face with the plane that fits its outline is moved by an
affine map that does not flatten space, and its new outline is still large enough to derive a plane
from. Unless its normal becomes too short the face then carries that plane or, where the origin is
moved along the normal, the same plane turned over. So it carries the plane that fits its new
outline if and only if the origin is not moved along its normal. A normal that becomes too short
leaves the plane where it was, and then it fits by chance alone. -/
theorem plane_transform_eq_iff :
    (∀ x ∈ r.corners, (Plane.ofVertices r.vertices).signedDistance x = 0) ∧
    (Scalar.epsilon < (normals.mapVector q.plane.normal).norm →
      (∀ x ∈ r.corners, r.plane.signedDistance x = 0) ∧
      r.plane = if 0 < motion.advance q.plane.normal then (Plane.ofVertices r.vertices).flip
        else Plane.ofVertices r.vertices) ∧
    (r.plane = Plane.ofVertices r.vertices ↔
      (Scalar.epsilon < (normals.mapVector q.plane.normal).norm ∧
        motion.advance q.plane.normal ≤ 0) ∨
      ((normals.mapVector q.plane.normal).norm ≤ Scalar.epsilon ∧
        q.plane = Plane.ofVertices r.vertices)) := by
  have hon : ∀ x ∈ r.corners, (Plane.ofVertices r.vertices).signedDistance x = 0 := by
    intro x hx
    rw [ofVertices_transform hplanar hthree hplane hlarge h hdet hr hmoved hx]
    exact sub_self _
  have hturned := Plane.flip_ofVertices_ne r.vertices
  have hlaw := transform_plane hplanar hthree hplane hlarge h hdet hr hmoved hnormals
  refine ⟨hon, ?_, ?_⟩
  · intro hlong
    refine ⟨?_, hlaw hlong⟩
    intro x hx
    rw [hlaw hlong]
    split
    · rw [Plane.flip_signedDistance, hon x hx, neg_zero]
    · exact hon x hx
  · by_cases hlong : Scalar.epsilon < (normals.mapVector q.plane.normal).norm
    · rw [hlaw hlong]
      by_cases hfront : 0 < motion.advance q.plane.normal
      · simp [hfront, hturned, hlong.not_ge, hfront.not_ge]
      · simp [hfront, hlong, not_lt.mp hfront]
    · have hshort := not_lt.mp hlong
      have hsame : r.plane = q.plane := by
        obtain ⟨x, -, hmap⟩ := exists_transform_plane_eq motion normals
          (List.ne_nil_of_length_pos (by omega : 0 < q.vertices.length))
        rw [hr, hmap, Plane.transform_of_le hshort]
      rw [hsame]
      simp [hlong, hshort]

end Moved

/-! ### A square that is moved up or down -/

/-- A square in the ground plane, seen from above. -/
noncomputable def groundSquare : Polygon ℝ :=
  ofVertices [⟨⟨0, 0, 0⟩, Vec3.unitX⟩, ⟨⟨1, 0, 0⟩, Vec3.unitX⟩, ⟨⟨1, 1, 0⟩, Vec3.unitX⟩,
    ⟨⟨0, 1, 0⟩, Vec3.unitX⟩]

theorem outlineNormal_groundSquare :
    Plane.outlineNormal groundSquare.vertices = (2 : ℝ) • Vec3.unitZ := by
  rw [groundSquare, ofVertices, Plane.outlineNormal_four]
  ext <;> simp [Vec3.cross, Vec3.unitZ]
  norm_num

theorem groundSquare_plane : groundSquare.plane = ⟨Vec3.unitZ, 0⟩ := by
  refine ofVertices_plane (by simp) ?_ (by simp [Vec3.dot, Vec3.unitZ])
    outlineNormal_groundSquare (by simp [Vec3.dot, Vec3.unitZ])
  rw [Scalar.epsilon_real]
  norm_num

theorem isPlanar_groundSquare : IsPlanar groundSquare.corners := by
  refine ⟨Vec3.unitZ, ?_, ?_⟩
  · intro hzero
    exact one_ne_zero (congrArg Vec3.z hzero)
  · simp [groundSquare, ofVertices, corners, Vec3.unitZ, Vec3.dot]

theorem isLarge_groundSquare : groundSquare.IsLarge := by
  rw [IsLarge, outlineNormal_groundSquare, Vec3.norm_smul_of_unit (by norm_num)
    (by simp [Vec3.dot, Vec3.unitZ]), Scalar.epsilon_real]
  norm_num

/-- A translation leaves the square large. -/
theorem isLarge_groundSquare_translation (t : Vec3 ℝ) (normals : Mat4 ℝ) :
    (groundSquare.transform (Mat4.translation t) normals
      ((Mat4.translation t).linearDet < 0)).IsLarge := by
  have hdet : (Mat4.translation t).linearDet ≠ 0 := by simp
  have houtline : Plane.outlineNormal (groundSquare.transform (Mat4.translation t) normals
      ((Mat4.translation t).linearDet < 0)).vertices =
      Plane.outlineNormal groundSquare.vertices := by
    rw [Plane.outlineNormal_eq_newell, Plane.outlineNormal_eq_newell]
    refine (newell_transform (Mat4.isAffine_translation t) hdet groundSquare).trans ?_
    rw [Mat4.linearDet_translation, abs_one, one_smul, Mat4.conormal_translation]
    rfl
  rw [IsLarge, houtline]
  exact isLarge_groundSquare

/-- Up or down by one, the normal of the square stays long. -/
theorem long_groundSquare_translation {height : ℝ} (h : |height| = 1) {normals : Mat4 ℝ}
    (hnormals : (Mat4.translation ⟨0, 0, height⟩).normalMatrix? = some normals) :
    Scalar.epsilon < (normals.mapVector groundSquare.plane.normal).norm := by
  have hunit : groundSquare.plane.normal.norm = 1 := by
    simp [groundSquare_plane, Vec3.unitZ, Vec3.norm, Vec3.dot]
  have halong : |(⟨0, 0, height⟩ : Vec3 ℝ).dot groundSquare.plane.normal| = 1 := by
    simpa [groundSquare_plane, Vec3.unitZ, Vec3.dot] using h
  rw [Mat4.norm_mapVector_translation hnormals hunit (.inr halong), Scalar.epsilon_real]
  norm_num

/-- A square that is moved down by one keeps the plane that fits it. The one that is moved up by one
is turned over. -/
theorem plane_transform_eq_iff_groundSquare : ∃ (down up normals normals' : Mat4 ℝ)
    (r r' : Polygon ℝ), down = Mat4.translation ⟨0, 0, -1⟩ ∧ up = Mat4.translation ⟨0, 0, 1⟩ ∧
    down.normalMatrix? = some normals ∧ up.normalMatrix? = some normals' ∧
    r = groundSquare.transform down normals (down.linearDet < 0) ∧
    r' = groundSquare.transform up normals' (up.linearDet < 0) ∧
    IsPlanar groundSquare.corners ∧ groundSquare.IsLarge ∧ r.IsLarge ∧ r'.IsLarge ∧
    r.plane = Plane.ofVertices r.vertices ∧ r'.plane ≠ Plane.ofVertices r'.vertices ∧
    r'.plane = (Plane.ofVertices r'.vertices).flip := by
  obtain ⟨normals, hnormals⟩ := Mat4.exists_normalMatrix?_translation ⟨0, 0, -1⟩
  obtain ⟨normals', hnormals'⟩ := Mat4.exists_normalMatrix?_translation ⟨0, 0, 1⟩
  have hlong := long_groundSquare_translation (by simp) hnormals
  have hlong' := long_groundSquare_translation (by simp) hnormals'
  have hadvance (height : ℝ) :
      (Mat4.translation ⟨0, 0, height⟩).advance groundSquare.plane.normal = height := by
    simp [groundSquare_plane, Vec3.unitZ, Vec3.dot]
  have hlarge := isLarge_groundSquare_translation ⟨0, 0, -1⟩ normals
  have hlarge' := isLarge_groundSquare_translation ⟨0, 0, 1⟩ normals'
  have hthree : 3 ≤ groundSquare.vertices.length := by simp [groundSquare, ofVertices]
  obtain ⟨-, -, hfits⟩ := plane_transform_eq_iff isPlanar_groundSquare hthree rfl
    isLarge_groundSquare (Mat4.isAffine_translation _) (by simp) rfl hlarge hnormals
  obtain ⟨-, hlaw, hfits'⟩ := plane_transform_eq_iff isPlanar_groundSquare hthree rfl
    isLarge_groundSquare (Mat4.isAffine_translation _) (by simp) rfl hlarge' hnormals'
  refine ⟨_, _, normals, normals', _, _, rfl, rfl, hnormals, hnormals', rfl, rfl,
    isPlanar_groundSquare, isLarge_groundSquare, hlarge, hlarge', ?_, ?_, ?_⟩
  · exact hfits.mpr (.inl ⟨hlong, by rw [hadvance]; norm_num⟩)
  · rw [Ne, hfits', hadvance]
    simp [hlong', hlong'.not_ge]
  · rw [(hlaw hlong').2, hadvance, if_pos one_pos]

/-- The plane of a moved face need not fit its outline, though nothing is too short on the way. -/
theorem exists_transform_plane_ne : ∃ (q r : Polygon ℝ) (motion normals : Mat4 ℝ),
    q = groundSquare ∧ motion = Mat4.translation ⟨0, 0, 1⟩ ∧ IsPlanar q.corners ∧
    3 ≤ q.vertices.length ∧ q.plane = Plane.ofVertices q.vertices ∧ q.IsLarge ∧ motion.IsAffine ∧
    motion.linearDet ≠ 0 ∧ motion.normalMatrix? = some normals ∧
    r = q.transform motion normals (motion.linearDet < 0) ∧ r.IsLarge ∧
    Scalar.epsilon < (motion.conormal q.plane.normal).norm ∧
    Scalar.epsilon < (normals.mapVector q.plane.normal).norm ∧
    r.plane ≠ Plane.ofVertices r.vertices := by
  obtain ⟨normals, hnormals⟩ := Mat4.exists_normalMatrix?_translation ⟨0, 0, 1⟩
  have hlong := long_groundSquare_translation (by simp) hnormals
  set motion : Mat4 ℝ := Mat4.translation ⟨0, 0, 1⟩
  have hthree : 3 ≤ groundSquare.vertices.length := by simp [groundSquare, ofVertices]
  have haffine : motion.IsAffine := Mat4.isAffine_translation _
  have hdet : motion.linearDet ≠ 0 := by simp [motion]
  have hup : 0 < motion.advance groundSquare.plane.normal := by
    simp [motion, groundSquare_plane, Vec3.unitZ, Vec3.dot]
  have hlarge := isLarge_groundSquare_translation ⟨0, 0, 1⟩ normals
  have hconormal : Scalar.epsilon < (motion.conormal groundSquare.plane.normal).norm := by
    rw [Mat4.conormal_translation, groundSquare_plane, Scalar.epsilon_real]
    simp only [Vec3.unitZ, Vec3.norm, Vec3.dot]
    norm_num
  refine ⟨groundSquare, _, motion, normals, rfl, rfl, isPlanar_groundSquare, hthree, rfl,
    isLarge_groundSquare, haffine, hdet, hnormals, rfl, hlarge, hconormal, hlong, ?_⟩
  rw [transform_plane isPlanar_groundSquare hthree rfl isLarge_groundSquare haffine hdet rfl hlarge
    hnormals hlong, if_pos hup]
  exact Plane.flip_ofVertices_ne _

end Polygon

end Solids
