import Solids.Proofs.RoundShape
import Solids.Proofs.Volume
/-!
# Solids.Proofs.Faces

**The faces of the basic shapes.** Every face of a box, a ball or a cylinder has its
corners in one plane. Whether the polygon carries that plane depends on its size: the
plane of a polygon is derived from its outline, and the ground plane stands in for it
where the normal of the outline, twice as long as the face is large, is no longer than
`epsilon`.

Main statements:

* `Polygon.ofVertices_plane`, `Polygon.ofVertices_plane_of_le` — the two cases;
* `Mesh.isFace_of_ofShape` — every face of a shape is made from an outline in one plane.
-/

namespace Solids

open Vec3

/-! ### Lengths -/

namespace Vec3

theorem dot_self_nonneg (v : Vec3 ℝ) : 0 ≤ v.dot v := by
  simp only [dot]
  nlinarith [mul_self_nonneg v.x, mul_self_nonneg v.y, mul_self_nonneg v.z]

theorem norm_mul_self (v : Vec3 ℝ) : v.norm * v.norm = v.dot v :=
  Real.mul_self_sqrt (dot_self_nonneg v)

theorem norm_nonneg (v : Vec3 ℝ) : 0 ≤ v.norm := Real.sqrt_nonneg _

/-- The scalar product of two vectors is at most that of their lengths. -/
theorem dot_mul_dot_le (a b : Vec3 ℝ) : a.dot b * a.dot b ≤ a.dot a * b.dot b := by
  have hcross : a.dot a * b.dot b - a.dot b * a.dot b = (a.cross b).dot (a.cross b) := by
    simp only [dot, cross]
    ring
  have hnonneg := dot_self_nonneg (a.cross b)
  linarith

theorem norm_smul_of_unit {n : Vec3 ℝ} {k : ℝ} (hk : 0 ≤ k) (hn : n.dot n = 1) :
    (k • n).norm = k := by
  rw [norm, Scalar.sqrt_real, dot_smul, dot_comm, dot_smul, hn, mul_one, Real.sqrt_mul_self hk]

theorem divide_eq_smul (v : Vec3 ℝ) (a : ℝ) : v.divide a = a⁻¹ • v := by
  ext <;> simp [div_eq_inv_mul]

end Vec3

/-! ### Outlines -/

namespace Plane

theorem outlineNormal_three (a b c : Vertex ℝ) :
    outlineNormal [a, b, c] = (b.pos - a.pos).cross (c.pos - a.pos) := by
  ext <;> simp [outlineNormal, edges, edgeTerm, cross] <;> ring

theorem outlineNormal_four (a b c d : Vertex ℝ) :
    outlineNormal [a, b, c, d] = (c.pos - a.pos).cross (d.pos - b.pos) := by
  ext <;> simp [outlineNormal, edges, edgeTerm, cross] <;> ring

/-- What all corners have in common along `n` the centroid has too. -/
theorem dot_centroid {n : Vec3 ℝ} {c : ℝ} {l : List (Vertex ℝ)} (hne : l ≠ [])
    (h : ∀ v ∈ l, n.dot v.pos = c) : n.dot (centroid l) = c := by
  have hsum : ∀ (l : List (Vertex ℝ)) (s : Vec3 ℝ), (∀ v ∈ l, n.dot v.pos = c) →
      n.dot (l.foldl (fun s v => s + v.pos) s) = n.dot s + l.length * c := by
    intro l
    induction l with
    | nil => simp
    | cons v l ih =>
      intro s h
      rw [List.forall_mem_cons] at h
      rw [List.foldl_cons, ih _ h.2, dot_add, h.1, List.length_cons]
      push_cast
      ring
  have hlength : (l.length : ℝ) ≠ 0 := by
    exact_mod_cast (List.length_pos_iff.mpr hne).ne'
  rw [centroid, divide_eq_smul, dot_smul, hsum l 0 h, dot_zero, zero_add, Scalar.ofNat_real,
    inv_mul_cancel_left₀ hlength]

end Plane

namespace Polygon

variable {l : List (Vertex ℝ)} {n : Vec3 ℝ} {k c : ℝ}

/-- The plane of a polygon whose outline is large enough. -/
theorem ofVertices_plane (hlength : 3 ≤ l.length) (hk : Scalar.epsilon < k) (hn : n.dot n = 1)
    (hnormal : Plane.outlineNormal l = k • n) (hlevel : ∀ v ∈ l, n.dot v.pos = c) :
    (ofVertices l).plane = ⟨n, c⟩ := by
  have hpos : (0 : ℝ) < Scalar.epsilon := Scalar.epsilon_pos
  have hnorm : (k • n).norm = k := norm_smul_of_unit (hpos.trans hk).le hn
  have hunit : (k • n).normalize = n := by
    rw [Vec3.normalize, hnorm, divide_eq_smul, inv_smul_smul₀ (hpos.trans hk).ne']
  have hne : l ≠ [] := by
    rintro rfl
    simp at hlength
  rw [ofVertices, Plane.ofVertices, if_neg (by omega), hnormal, normalize?, hnorm,
    if_neg (not_le.mpr hk), hunit]
  show Plane.mk n (n.dot (Plane.centroid l)) = ⟨n, c⟩
  rw [Plane.dot_centroid hne hlevel]

/-- The plane of a polygon whose outline is too small. -/
theorem ofVertices_plane_of_le (h : (Plane.outlineNormal l).norm ≤ Scalar.epsilon) :
    (ofVertices l).plane = Plane.ground := by
  rw [ofVertices, Plane.ofVertices]
  split
  · rfl
  · rw [normalize?, if_pos h]

/-- The polygon was made from an outline in one plane, across the outline's normal. -/
structure IsFace (q : Polygon ℝ) : Prop where
  /-- The plane was derived. -/
  eq_ofVertices : q = ofVertices q.vertices
  /-- There are enough corners to derive it from. -/
  three_le : 3 ≤ q.vertices.length
  /-- All corners are equally far along the outline's normal. -/
  level : ∀ v ∈ q.vertices, ∀ w ∈ q.vertices,
    (Plane.outlineNormal q.vertices).dot v.pos = (Plane.outlineNormal q.vertices).dot w.pos

/-- The outline is large enough to derive a plane from it. -/
def IsLarge (q : Polygon ℝ) : Prop := Scalar.epsilon < (Plane.outlineNormal q.vertices).norm

variable {q : Polygon ℝ}

/-- The plane that a large face carries: it goes through any corner. -/
theorem IsFace.plane_eq (h : q.IsFace) (hlarge : q.IsLarge) {v : Vertex ℝ} (hv : v ∈ q.vertices) :
    q.plane = ⟨(Plane.outlineNormal q.vertices).norm⁻¹ • Plane.outlineNormal q.vertices,
      ((Plane.outlineNormal q.vertices).norm⁻¹ • Plane.outlineNormal q.vertices).dot v.pos⟩ := by
  have hpos := Scalar.epsilon_pos.trans hlarge
  set N := Plane.outlineNormal q.vertices with hN
  have hunit : (N.norm⁻¹ • N).dot (N.norm⁻¹ • N) = 1 := by
    rw [dot_smul, dot_comm, dot_smul, ← norm_mul_self, inv_mul_cancel_left₀ hpos.ne',
      inv_mul_cancel₀ hpos.ne']
  have hlevel : ∀ w ∈ q.vertices, (N.norm⁻¹ • N).dot w.pos = (N.norm⁻¹ • N).dot v.pos := by
    intro w hw
    rw [dot_comm, dot_smul, dot_comm, h.level w hw v hv, dot_comm (_ • N), dot_smul, dot_comm]
  rw [h.eq_ofVertices]
  exact ofVertices_plane h.three_le hlarge hunit (smul_inv_smul₀ hpos.ne' N).symm hlevel

theorem IsFace.exists_mem (h : q.IsFace) : ∃ v, v ∈ q.vertices :=
  List.exists_mem_of_length_pos (by have := h.three_le; omega)

/-- A face that is large enough is on the plane it carries. -/
theorem IsFace.isFlat (h : q.IsFace) (hlarge : q.IsLarge) : q.IsFlat := by
  have hpos := Scalar.epsilon_pos.trans hlarge
  refine ⟨?_, fun x hx => ?_⟩
  · obtain ⟨v, hv⟩ := h.exists_mem
    rw [h.plane_eq hlarge hv]
    refine smul_ne_zero (inv_ne_zero hpos.ne') fun h0 => ?_
    rw [h0, Vec3.norm, dot_zero, Scalar.sqrt_real, Real.sqrt_zero] at hpos
    exact lt_irrefl _ hpos
  · obtain ⟨v, hv, rfl⟩ := List.mem_map.mp hx
    rw [h.plane_eq hlarge hv]
    exact sub_self _

/-- A point is no further from the plane of a large face than from any corner, and only what
the normal sees of the way there counts. -/
theorem IsFace.abs_signedDistance_le (h : q.IsFace) (hlarge : q.IsLarge) {v : Vertex ℝ}
    (hv : v ∈ q.vertices) {x u : Vec3 ℝ} {d : ℝ} (hd : 0 ≤ d)
    (hu : (Plane.outlineNormal q.vertices).dot (x - v.pos)
      = (Plane.outlineNormal q.vertices).dot u) (hle : u.dot u ≤ d * d) :
    |q.plane.signedDistance x| ≤ d := by
  have hpos := Scalar.epsilon_pos.trans hlarge
  set N := Plane.outlineNormal q.vertices
  have hdistance : q.plane.signedDistance x = N.norm⁻¹ * N.dot u := by
    rw [h.plane_eq hlarge hv]
    show (N.norm⁻¹ • N).dot x - (N.norm⁻¹ • N).dot v.pos = N.norm⁻¹ * N.dot u
    rw [← dot_sub, dot_comm, dot_smul, dot_comm, hu]
  have hsquare : N.dot u * N.dot u ≤ (N.norm * d) * (N.norm * d) :=
    calc N.dot u * N.dot u ≤ N.dot N * u.dot u := dot_mul_dot_le N u
      _ ≤ N.dot N * (d * d) := by gcongr; exact dot_self_nonneg N
      _ = (N.norm * d) * (N.norm * d) := by rw [← norm_mul_self]; ring
  rw [hdistance, abs_mul, abs_of_pos (inv_pos.mpr hpos), inv_mul_le_iff₀ hpos]
  exact abs_le_of_sq_le_sq (by simpa [sq] using hsquare) (by positivity)

/-- A face that is too small carries the ground plane. -/
theorem IsFace.plane_eq_ground (h : q.IsFace) (hsmall : ¬ q.IsLarge) :
    q.plane = Plane.ground := by
  rw [h.eq_ofVertices]
  exact ofVertices_plane_of_le (not_lt.mp hsmall)

theorem isFace_three (a b c : Vertex ℝ) : (ofVertices [a, b, c]).IsFace := by
  refine ⟨rfl, le_rfl, ?_⟩
  have hlevel : ∀ v ∈ [a, b, c],
      (Plane.outlineNormal [a, b, c]).dot v.pos = (Plane.outlineNormal [a, b, c]).dot a.pos := by
    rw [Plane.outlineNormal_three]
    simp only [List.mem_cons, List.not_mem_nil, or_false]
    rintro v (rfl | rfl | rfl) <;> simp only [dot, cross, sub_x, sub_y, sub_z] <;> ring
  intro v hv w hw
  exact (hlevel v hv).trans (hlevel w hw).symm

theorem isFace_four {a b c d : Vertex ℝ}
    (h : (b.pos - a.pos).dot ((c.pos - a.pos).cross (d.pos - a.pos)) = 0) :
    (ofVertices [a, b, c, d]).IsFace := by
  refine ⟨rfl, by simp [ofVertices], ?_⟩
  have hlevel : ∀ v ∈ [a, b, c, d],
      (Plane.outlineNormal [a, b, c, d]).dot v.pos
        = (Plane.outlineNormal [a, b, c, d]).dot a.pos := by
    rw [Plane.outlineNormal_four]
    simp only [dot, cross, sub_x, sub_y, sub_z] at h
    simp only [List.mem_cons, List.not_mem_nil, or_false]
    rintro v (rfl | rfl | rfl | rfl) <;> simp only [dot, cross, sub_x, sub_y, sub_z]
    · linarith
    · linarith
    · linarith
  intro v hv w hw
  exact (hlevel v hv).trans (hlevel w hw).symm

end Polygon

/-! ### The faces of shapes -/

namespace Mesh

open Solids.Polygon

variable {m : Mesh ℝ}

theorem resolveCenter_real (center : Option (Vec3 ℝ)) :
    resolveCenter center = .ok (center.getD 0) := rfl

/-- Over the reals a box is refused only for an edge of negative length. -/
theorem cuboid_eq_ok {size : Vec3 ℝ} {center : Option (Vec3 ℝ)} :
    cuboid size center = .ok m ↔ (0 ≤ size.x ∧ 0 ≤ size.y ∧ 0 ≤ size.z) ∧
      m = if size.x = 0 ∨ size.y = 0 ∨ size.z = 0 then empty
        else ofPolygons (cuboidFaces (center.getD 0 - size.scale Scalar.half) size) := by
  have hfinite : requireFinite .size size = .ok () := rfl
  rw [cuboid, hfinite, resolveCenter_real]
  by_cases hneg : 0 ≤ size.x ∧ 0 ≤ size.y ∧ 0 ≤ size.z
  · have hany : (size.any fun a => decide (a < 0)) = false := by
      simp [Vec3.any, hneg]
    have hzero : size.any Scalar.isZero = true ↔ size.x = 0 ∨ size.y = 0 ∨ size.z = 0 := by
      simp [Vec3.any, or_assoc]
    simp only [hneg, hany, true_and, Bool.false_eq_true, if_false, hzero]
    show (if _ then Except.ok empty else Except.ok _) = _ ↔ _
    split <;> simp [eq_comm]
  · have hany : (size.any fun a => decide (a < 0)) = true := by
      simp only [not_and_or, not_le] at hneg
      simp [Vec3.any, hneg, or_assoc]
    simp only [hneg, hany, false_and, iff_false]
    intro h
    cases h

theorem isFace_of_mem_cuboidFaces {o size : Vec3 ℝ} {q : Polygon ℝ} (h : q ∈ cuboidFaces o size) :
    q.IsFace := by
  simp only [cuboidFaces, List.map_cons, List.map_nil, List.mem_cons, List.not_mem_nil,
    or_false] at h
  rcases h with rfl | rfl | rfl | rfl | rfl | rfl <;>
    exact isFace_four (by simp only [dot, cross, sub_x, sub_y, sub_z, add_x, add_y, add_z]; ring)

theorem isFace_sphereFace (center : Vec3 ℝ) (radius : ℝ) {slices layers : ℕ} (i j : ℕ)
    (hlayers : 2 ≤ layers) : (sphereFace center radius slices layers i j).IsFace := by
  rw [sphereFace]
  by_cases hlast : j + 1 < layers
  · by_cases hfirst : 0 < j
    · simp only [if_pos hlast, if_pos hfirst]
      refine isFace_four ?_
      simp only [sphereVertex, dot, cross, sub_x, sub_y, sub_z, add_x, add_y, add_z, scale_x,
        scale_y, scale_z]
      ring
    · simp only [if_pos hlast, if_neg hfirst]
      exact isFace_three _ _ _
  · simp only [if_neg hlast, if_pos (show 0 < j by omega)]
    exact isFace_three _ _ _

theorem isFace_of_mem_cylinderFaces {center : Vec3 ℝ} {radius z0 z1 : ℝ} {slices i : ℕ}
    {q : Polygon ℝ} (h : q ∈ cylinderFaces center radius z0 z1 slices i) : q.IsFace := by
  simp only [cylinderFaces, List.mem_cons, List.not_mem_nil, or_false] at h
  rcases h with rfl | rfl | rfl
  · exact isFace_three _ _ _
  · exact isFace_four (by simp only [dot, cross, sub_x, sub_y, sub_z]; ring)
  · exact isFace_three _ _ _

/-- Every face of a shape is made from an outline in one plane. -/
theorem isFace_of_ofShape {shape : Shape ℝ} (h : ofShape shape = .ok m) :
    ∀ q ∈ m.polygons, q.IsFace := by
  cases shape with
  | cuboid size center =>
    obtain ⟨-, rfl⟩ := cuboid_eq_ok.mp h
    intro q hq
    split at hq
    · cases hq
    · exact isFace_of_mem_cuboidFaces hq
  | sphere radius center segments =>
    obtain ⟨-, rfl⟩ := (sphere_ok_iff rfl).mp h
    intro q hq
    simp only [ofPolygons_polygons, List.mem_flatMap, List.mem_map] at hq
    obtain ⟨i, -, j, -, rfl⟩ := hq
    exact isFace_sphereFace _ radius i j (le_max_right _ _)
  | cylinder height radius center segments =>
    obtain ⟨-, rfl⟩ := (cylinder_ok_iff rfl).mp h
    intro q hq
    simp only [ofPolygons_polygons, List.mem_flatMap] at hq
    obtain ⟨i, -, hq⟩ := hq
    exact isFace_of_mem_cylinderFaces hq

end Mesh

end Solids
