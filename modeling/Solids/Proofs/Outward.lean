import Solids.Proofs.Ball
import Solids.Proofs.Cuboid
import Solids.Proofs.Cylinder
/-!
# Solids.Proofs.Outward

**The basic shapes are convex and face outward.** Every face of a shape is across some direction,
all corners of the shape are at most as far in that direction as the face is, and the center is less
far. If the face is large enough to carry its own plane, that says where they are with respect to
the plane: the shape is behind the planes of all its faces.

Main definition: `Polygon.IsOutmost`.

Main statement: `Mesh.behind_of_ofShape`.
-/

namespace Solids

open Vec3

/-! ### Outmost faces -/

namespace Polygon

variable {q : Polygon ℝ} {points : List (Vec3 ℝ)} {o n : Vec3 ℝ} {k c : ℝ}

/-- The outline is across a direction, and as far in it as any of the points. The point `o` is less
far. -/
def IsOutmost (q : Polygon ℝ) (points : List (Vec3 ℝ)) (o : Vec3 ℝ) : Prop :=
  ∃ (n : Vec3 ℝ) (c k : ℝ), (0 < k ∧ Plane.outlineNormal q.vertices = k • n) ∧
    (∀ x ∈ q.corners, n.dot x = c) ∧ (∀ x ∈ points, n.dot x ≤ c) ∧ n.dot o < c

/-- Distances from the plane of a large face are measured in the direction it is across. -/
theorem IsFace.exists_signedDistance_eq (h : q.IsFace) (hlarge : q.IsLarge) (hk : 0 < k)
    (hnormal : Plane.outlineNormal q.vertices = k • n) (hlevel : ∀ x ∈ q.corners, n.dot x = c) :
    ∃ t, 0 < t ∧ ∀ x, q.plane.signedDistance x = t * (n.dot x - c) := by
  have hpos := Scalar.epsilon_pos.trans hlarge
  obtain ⟨v, hv⟩ := h.exists_mem
  refine ⟨(Plane.outlineNormal q.vertices).norm⁻¹ * k, by positivity, fun x => ?_⟩
  rw [h.plane_eq hlarge hv, ← hlevel v.pos (pos_mem_corners hv)]
  simp only [Plane.signedDistance, hnormal, smul_smul]
  rw [dot_comm, dot_smul, dot_comm _ v.pos, dot_smul, dot_comm x, dot_comm v.pos]
  ring

/-- All points are behind the plane of a large face that is outmost. -/
theorem IsOutmost.behind (h : q.IsOutmost points o) (hface : q.IsFace) (hlarge : q.IsLarge) :
    (∀ x ∈ q.corners, q.plane.signedDistance x = 0) ∧
      (∀ x ∈ points, q.plane.signedDistance x ≤ 0) ∧ q.plane.signedDistance o < 0 := by
  obtain ⟨n, c, k, ⟨hk, hnormal⟩, hlevel, hle, hlt⟩ := h
  obtain ⟨t, ht, hdistance⟩ := hface.exists_signedDistance_eq hlarge hk hnormal hlevel
  simp only [hdistance]
  refine ⟨fun x hx => ?_, fun x hx => ?_, ?_⟩
  · rw [hlevel x hx, sub_self, mul_zero]
  · exact mul_nonpos_of_nonneg_of_nonpos ht.le (sub_nonpos.mpr (hle x hx))
  · exact mul_neg_of_pos_of_neg ht (sub_neg.mpr hlt)

end Polygon

namespace Mesh

/-- The corners of a mesh are those of its polygons. -/
theorem mem_positions {m : Mesh ℝ} {x : Vec3 ℝ} :
    x ∈ m.positions ↔ ∃ q ∈ m.polygons, x ∈ q.corners := List.mem_flatMap

end Mesh

/-! ### Boxes -/

/-- The center of a box is behind all its faces. -/
theorem Facing.signedDistance_middle_neg (o : Vec3 ℝ) {size : Vec3 ℝ}
    (h : 0 < size.x ∧ 0 < size.y ∧ 0 < size.z) (d : Facing) :
    (d.plane o size).signedDistance (o + size.scale Scalar.half) < 0 := by
  obtain ⟨hx, hy, hz⟩ := h
  cases d <;>
    simp [Plane.signedDistance, plane, normal, level, dot, unitX, unitY, unitZ] <;>
    linarith

theorem Facing.isOutmost_face {o size : Vec3 ℝ} {points : List (Vec3 ℝ)}
    (h : 0 < size.x ∧ 0 < size.y ∧ 0 < size.z)
    (hpoints : ∀ x ∈ points, ∃ q ∈ Mesh.cuboidFaces o size, x ∈ q.corners) (d : Facing) :
    (face o size d).IsOutmost points (o + size.scale Scalar.half) := by
  have hmiddle := signedDistance_middle_neg o h d
  obtain ⟨hx, hy, hz⟩ := h
  have harea : 0 < d.doubledArea size := by cases d <;> simp only [doubledArea] <;> positivity
  refine ⟨d.normal, d.level o size, d.doubledArea size, ⟨harea, outlineNormal_face o size d⟩,
    fun x hmem => ?_, fun x hmem => ?_, sub_neg.mp hmiddle⟩
  · exact sub_eq_zero.mp (signedDistance_of_mem_corners (face_corners ▸ hmem))
  · obtain ⟨q, hq, hmem⟩ := hpoints x hmem
    obtain ⟨d', rfl⟩ := mem_cuboidFaces.mp hq
    exact sub_nonpos.mp
      (near_iff.mp (near_of_mem_corners ⟨hx.le, hy.le, hz.le⟩ (face_corners ▸ hmem)) d)

/-! ### Balls -/

theorem Ball.isOutmost_face (b : Ball) {i j : ℕ} (hi : i < b.slices) (hj : j < b.layers)
    {points : List (Vec3 ℝ)} (hpoints : ∀ x ∈ points, ∃ q ∈ b.faces, x ∈ q.corners) :
    (b.face i j).IsOutmost points b.center := by
  have hreach := mul_pos b.radius_pos b.reach_pos
  have hcorner : ∀ i' j', (b.outward i j).dot (b.corner i' j').pos
      = (b.outward i j).dot b.center + b.radius * (b.outward i j).dot (b.direction i' j') := by
    intro i' j'
    rw [corner, dot_add, dot_smul]
  refine ⟨b.outward i j, (b.outward i j).dot b.center + b.radius * b.reach, b.weight j,
    ⟨b.weight_pos hj, b.outlineNormal_face i hj⟩, fun x hx => ?_, fun x hx => ?_, by linarith⟩
  · obtain ⟨i', j', hi', hj', rfl⟩ := b.exists_of_mem_corners hx
    rw [hcorner, b.outward_dot_direction_of_mem hi' hj']
  · obtain ⟨q, hq, hx⟩ := hpoints x hx
    obtain ⟨a, ha, c, hc, rfl⟩ := b.mem_faces.mp hq
    obtain ⟨i', j', hi', hj', rfl⟩ := b.exists_of_mem_corners hx
    have hradius := b.radius_pos.le
    rw [hcorner]
    gcongr
    exact b.outward_dot_direction_le hi hj (by omega) (by omega)

/-! ### Cylinders -/

namespace Column

variable (c : Column) {i : ℕ} {q : Polygon ℝ} {points : List (Vec3 ℝ)}

/-- How far the points of a rim are in the direction of a side. -/
theorem outward_dot_rim (i i' : ℕ) (z : ℝ) : (c.outward i).dot (c.rim i' z)
    = (c.outward i).dot c.center
      + c.radius * Real.cos (Mesh.sliceAngle c.slices i' - midAngle c.slices i) := by
  rw [Real.cos_sub]
  simp only [outward, rim, dot, midAngle, halfAngle]
  ring

/-- The corners of a cylinder are on its axis or on a rim. -/
theorem exists_of_mem_corners {x : Vec3 ℝ} (hq : q ∈ c.faces) (hx : x ∈ q.corners) :
    ∃ z, x = ⟨c.center.x, c.center.y, z⟩ ∨ ∃ i ≤ c.slices, x = c.rim i z := by
  obtain ⟨i, hi, rfl | rfl | rfl⟩ := c.mem_faces.mp hq
  · simp only [bottom_corners, List.mem_cons, List.not_mem_nil, or_false] at hx
    obtain rfl | rfl | rfl := hx
    · exact ⟨_, .inl rfl⟩
    · exact ⟨_, .inr ⟨i + 1, hi, rfl⟩⟩
    · exact ⟨_, .inr ⟨i, hi.le, rfl⟩⟩
  · simp only [side_corners, List.mem_cons, List.not_mem_nil, or_false] at hx
    obtain rfl | rfl | rfl | rfl := hx
    · exact ⟨_, .inr ⟨i, hi.le, rfl⟩⟩
    · exact ⟨_, .inr ⟨i + 1, hi, rfl⟩⟩
    · exact ⟨_, .inr ⟨i + 1, hi, rfl⟩⟩
    · exact ⟨_, .inr ⟨i, hi.le, rfl⟩⟩
  · simp only [top_corners, List.mem_cons, List.not_mem_nil, or_false] at hx
    obtain rfl | rfl | rfl := hx
    · exact ⟨_, .inl rfl⟩
    · exact ⟨_, .inr ⟨i, hi.le, rfl⟩⟩
    · exact ⟨_, .inr ⟨i + 1, hi, rfl⟩⟩

theorem reach_pos : 0 < c.radius * Real.cos c.halfAngle := by
  have hfour := c.four_le
  exact mul_pos c.radius_pos (cos_pi_div_pos (by omega))

/-- No corner is further in the direction of a side than that side. -/
theorem outward_dot_le (hi : i < c.slices) {x : Vec3 ℝ} (hq : q ∈ c.faces) (hx : x ∈ q.corners) :
    (c.outward i).dot x ≤ (c.outward i).dot c.center + c.radius * Real.cos c.halfAngle := by
  obtain ⟨z, rfl | ⟨i', hi', rfl⟩⟩ := c.exists_of_mem_corners hq hx
  · have haxis : (c.outward i).dot ⟨c.center.x, c.center.y, z⟩ = (c.outward i).dot c.center := by
      simp [dot, outward]
    rw [haxis]
    linarith [c.reach_pos]
  · have hradius := c.radius_pos.le
    rw [outward_dot_rim]
    gcongr
    exact cos_sub_midAngle_le hi hi'

theorem isOutmost_of_mem_faces (hq : q ∈ c.faces) (hlow : c.low < c.center.z)
    (hhigh : c.center.z < c.high) (hpoints : ∀ x ∈ points, ∃ q ∈ c.faces, x ∈ q.corners) :
    q.IsOutmost points c.center := by
  have hup : ∀ x : Vec3 ℝ, unitZ.dot x = x.z := by simp [dot, unitZ]
  have hdown : ∀ x : Vec3 ℝ, (-unitZ).dot x = -x.z := by simp [dot, unitZ]
  have hwithin : ∀ x ∈ points, c.low ≤ x.z ∧ x.z ≤ c.high := by
    intro x hx
    obtain ⟨q, hq, hx⟩ := hpoints x hx
    exact (c.within_of_mem_corners hq hx).1
  obtain ⟨i, hi, rfl | rfl | rfl⟩ := c.mem_faces.mp hq
  · refine ⟨-unitZ, -c.low, _, ⟨c.doubledSector_pos, c.outlineNormal_bottom i⟩, fun x hx => ?_,
      fun x hx => ?_, ?_⟩
    · rw [bottom_corners] at hx
      simp only [List.mem_cons, List.not_mem_nil, or_false] at hx
      obtain rfl | rfl | rfl := hx <;> exact hdown _
    · rw [hdown]
      exact neg_le_neg (hwithin x hx).1
    · rw [hdown]
      exact neg_lt_neg hlow
  · refine ⟨c.outward i, _, _, ⟨c.doubledSide_pos, c.outlineNormal_side i⟩, fun x hx => ?_,
      fun x hx => ?_, lt_add_of_pos_right _ c.reach_pos⟩
    · rw [side_corners] at hx
      simp only [List.mem_cons, List.not_mem_nil, or_false] at hx
      obtain rfl | rfl | rfl | rfl := hx <;>
        rw [outward_dot_rim, cos_sub_midAngle (by simp), halfAngle]
    · obtain ⟨q, hq, hx⟩ := hpoints x hx
      exact c.outward_dot_le hi hq hx
  · refine ⟨unitZ, c.high, _, ⟨c.doubledSector_pos, c.outlineNormal_top i⟩, fun x hx => ?_,
      fun x hx => ?_, ?_⟩
    · rw [top_corners] at hx
      simp only [List.mem_cons, List.not_mem_nil, or_false] at hx
      obtain rfl | rfl | rfl := hx <;> exact hup _
    · rw [hup]
      exact (hwithin x hx).2
    · rw [hup]
      exact hhigh

end Column

/-! ### All shapes -/

namespace Mesh

variable {s : Shape ℝ} {m : Mesh ℝ}

/-- All faces of a shape are outmost. -/
theorem isOutmost_of_ofShape (h : ofShape s = .ok m) :
    ∀ q ∈ m.polygons, q.IsOutmost m.positions s.center := by
  have hpoints : ∀ x ∈ m.positions, ∃ q ∈ m.polygons, x ∈ q.corners :=
    fun _ => mem_positions.mp
  intro q hq
  cases s with
  | cuboid size center =>
    obtain ⟨⟨hx, hy, hz⟩, hmade⟩ := cuboid_eq_ok.mp h
    split at hmade
    · rw [hmade] at hq
      exact absurd hq List.not_mem_nil
    · next hzero =>
      simp only [not_or] at hzero
      rw [hmade] at hq hpoints ⊢
      obtain ⟨d, rfl⟩ := Facing.mem_cuboidFaces.mp hq
      have houtmost := Facing.isOutmost_face ⟨lt_of_le_of_ne hx (Ne.symm hzero.1),
        lt_of_le_of_ne hy (Ne.symm hzero.2.1), lt_of_le_of_ne hz (Ne.symm hzero.2.2)⟩ hpoints d
      rwa [sub_add_cancel] at houtmost
  | sphere radius center segments =>
    obtain ⟨b, hfaces, hcenter⟩ := exists_ball h
    rw [hfaces] at hq hpoints
    obtain ⟨i, hi, j, hj, rfl⟩ := b.mem_faces.mp hq
    rw [← hcenter]
    exact b.isOutmost_face hi hj hpoints
  | cylinder height radius center segments =>
    obtain ⟨c, hfaces, hcenter, hlow, hhigh⟩ := exists_column h
    rw [hfaces] at hq hpoints
    rw [← hcenter]
    exact c.isOutmost_of_mem_faces hq hlow hhigh hpoints

/-- **The basic shapes are convex and face outward**: with respect to the plane of a face that is
large enough to carry its own plane, the corners of the face are on the plane, the corners of all
faces are on it or behind it, and the center is behind it. -/
theorem behind_of_ofShape (h : ofShape s = .ok m) : ∀ q ∈ m.polygons, q.IsLarge →
    (∀ x ∈ q.corners, q.plane.signedDistance x = 0) ∧
      (∀ x ∈ m.positions, q.plane.signedDistance x ≤ 0) ∧
      q.plane.signedDistance s.center < 0 := fun q hq hlarge =>
  (isOutmost_of_ofShape h q hq).behind (isFace_of_ofShape h q hq) hlarge

/-- All faces of a cube are large enough. -/
theorem behind_of_ofShape_cube : ∃ m, ofShape (.cuboid ⟨2, 2, 2⟩ none) = .ok m ∧
    m.polygons.length = 6 ∧ ∀ q ∈ m.polygons, q.IsLarge ∧
      (∀ x ∈ m.positions, q.plane.signedDistance x ≤ 0) ∧ q.plane.signedDistance 0 < 0 := by
  have hmade : ofShape (.cuboid ⟨2, 2, 2⟩ none)
      = .ok (ofPolygons (cuboidFaces ((none : Option (Vec3 ℝ)).getD 0
        - (⟨2, 2, 2⟩ : Vec3 ℝ).scale Scalar.half) ⟨2, 2, 2⟩)) :=
    cuboid_eq_ok.mpr ⟨by norm_num, by norm_num⟩
  refine ⟨_, hmade, rfl, fun q hq => ?_⟩
  have hlarge : q.IsLarge := by
    obtain ⟨d, rfl⟩ := Facing.mem_cuboidFaces.mp hq
    rw [Facing.isLarge_face (by norm_num), Scalar.epsilon_real]
    cases d <;> norm_num [Facing.doubledArea]
  obtain ⟨-, hbehind, hcenter⟩ := behind_of_ofShape hmade q hq hlarge
  exact ⟨hlarge, hbehind, hcenter⟩

end Mesh

end Solids
