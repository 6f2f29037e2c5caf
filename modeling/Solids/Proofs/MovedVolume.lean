import Solids.Proofs.Affine
/-!
# Solids.Proofs.MovedVolume

**What a motion does to the volume of a solid.** An affine map multiplies the volume of a closed
mesh by the magnitude of its determinant, and leaves it closed. A map that mirrors space changes
the sign of the determinant and the order of the corners, so the solid keeps facing outwards.

Main definition: `Outline.orderedBy` — a list, or the list run backwards, as a sign has it.

Main statement: `Mesh.volume_transform`.

One face by itself also gains the volume that the translation sweeps over it. That is the product
of the translation and of what the face's Newell vector becomes, so it is gone once the faces are
taken together.
-/

namespace Solids

open Outline

/-! ### Lists that are run backwards -/

namespace Outline

/-- A list, run backwards if the number is negative. -/
noncomputable def orderedBy {α : Type} (d : ℝ) (l : List α) : List α :=
  if d < 0 then l.reverse else l

section

variable {α β : Type} {d d' : ℝ} {l r : List α}

theorem orderedBy_of_neg (h : d < 0) (l : List α) : orderedBy d l = l.reverse := if_pos h

theorem orderedBy_of_pos (h : 0 < d) (l : List α) : orderedBy d l = l := if_neg h.not_gt

theorem mem_orderedBy {a : α} : a ∈ orderedBy d l ↔ a ∈ l := by
  unfold orderedBy
  split
  · exact List.mem_reverse
  · rfl

theorem map_orderedBy (f : α → β) (d : ℝ) (l : List α) :
    (orderedBy d l).map f = orderedBy d (l.map f) := by
  unfold orderedBy
  split
  · exact List.map_reverse
  · rfl

theorem orderedBy_inj : orderedBy d l = orderedBy d r ↔ l = r := by
  unfold orderedBy
  split
  · exact List.reverse_inj
  · rfl

theorem orderedBy_mul (hd : d ≠ 0) (hd' : d' ≠ 0) (l : List α) :
    orderedBy d' (orderedBy d l) = orderedBy (d' * d) l := by
  rcases hd.lt_or_gt with hneg | hpos <;> rcases hd'.lt_or_gt with hneg' | hpos'
  · rw [orderedBy_of_neg hneg, orderedBy_of_neg hneg', List.reverse_reverse,
      orderedBy_of_pos (mul_pos_of_neg_of_neg hneg' hneg)]
  · rw [orderedBy_of_neg hneg, orderedBy_of_pos hpos',
      orderedBy_of_neg (mul_neg_of_pos_of_neg hpos' hneg)]
  · rw [orderedBy_of_pos hpos, orderedBy_of_neg hneg',
      orderedBy_of_neg (mul_neg_of_neg_of_pos hneg' hpos)]
  · rw [orderedBy_of_pos hpos, orderedBy_of_pos hpos', orderedBy_of_pos (mul_pos hpos' hpos)]

end

theorem IsPlanar.orderedBy {l : List (Vec3 ℝ)} (h : IsPlanar l) (d : ℝ) :
    IsPlanar (orderedBy d l) := by
  unfold Outline.orderedBy
  split
  · exact h.reverse
  · exact h

/-- An outline run backwards has the opposite Newell vector. -/
theorem newell_orderedBy {d : ℝ} (hd : d ≠ 0) (l : List (Vec3 ℝ)) :
    d • newell (orderedBy d l) = |d| • newell l := by
  rcases hd.lt_or_gt with hneg | hpos
  · rw [orderedBy_of_neg hneg, newell_reverse, smul_neg, abs_of_neg hneg, neg_smul]
  · rw [orderedBy_of_pos hpos, abs_of_pos hpos]

end Outline

/-! ### Outlines under affine maps -/

namespace Mat4

variable {m : Mat4 ℝ}

/-- The Newell vector of an outline becomes what the vector products do. -/
theorem newell_map_mapPoint (h : m.IsAffine) (l : List (Vec3 ℝ)) :
    newell (l.map m.mapPoint) = m.cofactor (newell l) := by
  have hsum : ∀ vs : List (Vec3 ℝ), (vs.map m.cofactor).sum = m.cofactor vs.sum := by
    intro vs
    induction vs with
    | nil => simp
    | cons v vs ih => rw [List.map_cons, List.sum_cons, List.sum_cons, cofactor_add, ih]
  have hlinear : newell (l.map m.linear) = m.cofactor (newell l) := by
    rw [newell, edges_map, List.map_map, newell, ← hsum, List.map_map]
    exact congrArg List.sum (List.map_congr_left fun e _ => cross_linear m e.1 e.2)
  -- the areas of the image are seen from where the origin is, so the offset drops out
  rw [← hlinear]
  refine Vec3.eq_of_dot_eq fun n => ?_
  rw [dot_newell n m.offset, dot_newell n 0, area, area, edges_map, edges_map, List.map_map,
    List.map_map]
  refine congrArg List.sum (List.map_congr_left fun e _ => ?_)
  simp [Vec3.turn, mapPoint_eq h]

end Mat4

/-! ### Faces -/

namespace Polygon

variable {motion normals : Mat4 ℝ} {q : Polygon ℝ}

/-- The corners of a face that was moved. -/
theorem transform_corners (motion normals : Mat4 ℝ) (q : Polygon ℝ) :
    (q.transform motion normals (motion.linearDet < 0)).corners =
      orderedBy motion.linearDet (q.corners.map motion.mapPoint) := by
  unfold transform corners orderedBy
  by_cases hmirrored : motion.linearDet < 0 <;>
    simp [hmirrored, Vertex.transform, Function.comp_def]

theorem mapPoint_mem_corners_transform (normals : Mat4 ℝ) {x : Vec3 ℝ} (hx : x ∈ q.corners) :
    motion.mapPoint x ∈ (q.transform motion normals (motion.linearDet < 0)).corners := by
  rw [transform_corners, mem_orderedBy]
  exact List.mem_map_of_mem hx

section

variable (h : motion.IsAffine) (hdet : motion.linearDet ≠ 0)

include h hdet

/-- However the corners are ordered in the end, the Newell vector of a face becomes what its normal
does. -/
theorem newell_transform (q : Polygon ℝ) :
    newell (q.transform motion normals (motion.linearDet < 0)).corners =
      |motion.linearDet| • motion.conormal (newell q.corners) := by
  refine smul_right_injective _ hdet ?_
  show motion.linearDet • newell _ = motion.linearDet • _
  rw [transform_corners, newell_orderedBy hdet, Mat4.newell_map_mapPoint h, Mat4.cofactor_eq hdet,
    smul_comm]

theorem isPlanar_transform (hplanar : IsPlanar q.corners) :
    IsPlanar (q.transform motion normals (motion.linearDet < 0)).corners := by
  obtain ⟨n, hn, hlevel⟩ := hplanar
  rw [transform_corners]
  refine IsPlanar.orderedBy ⟨motion.conormal n, ?_, ?_⟩ _
  · intro hzero
    -- a normal that is lost has no product with itself, and had none before
    have hself := Mat4.dot_conormal hdet n n
    rw [hzero, Vec3.dot_zero] at hself
    exact hn (Vec3.dot_self_eq_zero.mp hself.symm)
  · simp only [List.forall_mem_map, Mat4.dot_conormal_mapPoint h hdet]
    intro a ha b hb
    rw [hlevel a ha b hb]

/-- The volume under a planar face after a motion. -/
theorem sixfoldVolume_transform (hplanar : IsPlanar q.corners) :
    (q.transform motion normals (motion.linearDet < 0)).sixfoldVolume =
      |motion.linearDet| * (q.sixfoldVolume + motion.advance (newell q.corners)) := by
  cases hq : q.corners with
  | nil =>
    have hmoved : (q.transform motion normals (motion.linearDet < 0)).corners = [] := by
      rw [transform_corners, hq]
      simp [orderedBy]
    rw [sixfoldVolume_of_corners_eq_nil hq, sixfoldVolume_of_corners_eq_nil hmoved]
    simp
  | cons x rest =>
    have hx : x ∈ q.corners := hq ▸ List.mem_cons_self
    rw [← hq, sixfoldVolume_eq_dot_newell hplanar hx,
      sixfoldVolume_eq_dot_newell (isPlanar_transform h hdet hplanar)
        (mapPoint_mem_corners_transform normals hx),
      newell_transform h hdet, Vec3.dot_smul, Vec3.dot_comm (motion.mapPoint x),
      Mat4.dot_conormal_mapPoint h hdet, Vec3.dot_comm x]

end

theorem sixfoldVolume_flip_of_isPlanar (hplanar : IsPlanar q.corners) :
    q.flip.sixfoldVolume = -q.sixfoldVolume := by
  cases hq : q.corners with
  | nil =>
    have hflip : q.flip.corners = [] := by rw [flip_corners, hq, List.reverse_nil]
    rw [sixfoldVolume_of_corners_eq_nil hq, sixfoldVolume_of_corners_eq_nil hflip, neg_zero]
  | cons x rest =>
    have hx : x ∈ q.corners := hq ▸ List.mem_cons_self
    have hflip : IsPlanar q.flip.corners := by
      rw [flip_corners]
      exact hplanar.reverse
    have hmem : x ∈ q.flip.corners := by
      rw [flip_corners]
      exact List.mem_reverse.mpr hx
    rw [sixfoldVolume_eq_dot_newell hplanar hx, sixfoldVolume_eq_dot_newell hflip hmem,
      flip_corners, newell_reverse, Vec3.dot_neg]

end Polygon

/-! ### Meshes -/

section Lists

variable {motion normals : Mat4 ℝ} {l : List (Polygon ℝ)}

theorem sixfold_map_transform (h : motion.IsAffine) (hdet : motion.linearDet ≠ 0)
    (hplanar : ∀ q ∈ l, IsPlanar q.corners) :
    sixfold (l.map (Polygon.transform motion normals (motion.linearDet < 0))) =
      |motion.linearDet| * (sixfold l + motion.advance (newellSum l)) := by
  induction l with
  | nil => simp
  | cons q l ih =>
    rw [List.forall_mem_cons] at hplanar
    rw [List.map_cons, sixfold_cons, sixfold_cons, newellSum_cons, ih hplanar.2,
      Polygon.sixfoldVolume_transform h hdet hplanar.1, Mat4.advance_add]
    ring

theorem newellSum_map_transform (h : motion.IsAffine) (hdet : motion.linearDet ≠ 0)
    (l : List (Polygon ℝ)) :
    newellSum (l.map (Polygon.transform motion normals (motion.linearDet < 0))) =
      |motion.linearDet| • motion.conormal (newellSum l) := by
  induction l with
  | nil => simp
  | cons q l ih =>
    rw [List.map_cons, newellSum_cons, newellSum_cons, ih, Polygon.newell_transform h hdet,
      Mat4.conormal_add, smul_add]

theorem sixfold_map_flip_of_isPlanar (hplanar : ∀ q ∈ l, IsPlanar q.corners) :
    sixfold (l.map Polygon.flip) = -sixfold l :=
  sixfold_map_flip_of_forall fun q hq => Polygon.sixfoldVolume_flip_of_isPlanar (hplanar q hq)

end Lists

namespace Mesh

variable {m : Mesh ℝ} {motion : Mat4 ℝ}

/-- Over the reals a motion that does not flatten space is never refused. -/
theorem exists_transform_eq_ok (m : Mesh ℝ) (h : motion.IsAffine) (hdet : motion.linearDet ≠ 0) :
    ∃ normals, motion.normalMatrix? = some normals ∧ m.transform motion = .ok (ofPolygons
      (m.polygons.map (Polygon.transform motion normals (motion.linearDet < 0)))) := by
  have hnormals := Mat4.normalMatrix?_eq h hdet
  refine ⟨_, hnormals, ?_⟩
  have hfinite : ∀ q : Polygon ℝ, q.isFinite = true := by
    intro q
    simp [Polygon.isFinite, Vertex.isFinite, Vec3.isFinite, Vec3.all]
  have hzero : Scalar.isZero motion.linearDet = false := by
    rw [Bool.eq_false_iff, ne_eq, Scalar.isZero_real]
    exact hdet
  simp [transform, hnormals, hzero, hfinite]

/-- **Volumes of moved solids.** If the faces of a mesh are planar and their Newell vectors cancel
out, then an affine map that does not flatten space is performed, multiplies the volume by the
magnitude of its determinant, and leaves Newell vectors that cancel out. The solid turned inside
out has the opposite volume. -/
theorem volume_transform (hplanar : ∀ q ∈ m.polygons, IsPlanar q.corners)
    (hclosed : newellSum m.polygons = 0) (h : motion.IsAffine) (hdet : motion.linearDet ≠ 0) :
    ∃ moved, m.transform motion = .ok moved ∧
      moved.volume = |motion.linearDet| * m.volume ∧ newellSum moved.polygons = 0 ∧
      m.inverse.volume = -m.volume := by
  obtain ⟨normals, -, hmoved⟩ := exists_transform_eq_ok m h hdet
  refine ⟨_, hmoved, ?_, ?_, ?_⟩
  · rw [volume_eq, volume_eq, ofPolygons_polygons, sixfold_map_transform h hdet hplanar, hclosed,
      Mat4.advance_zero, add_zero, mul_div_assoc]
  · rw [ofPolygons_polygons, newellSum_map_transform h hdet, hclosed, Mat4.conormal_zero, smul_zero]
  · rw [volume_eq, volume_eq, inverse_polygons, sixfold_map_flip_of_isPlanar hplanar, neg_div]

/-- A tetrahedron is stretched along one axis, mirrored on the way, and moved. -/
theorem volume_transform_tetrahedron : ∃ (m : Mesh ℝ) (motion : Mat4 ℝ) (moved : Mesh ℝ),
    m = ofPolygons
      [.ofVertices [⟨⟨0, 0, 0⟩, 0⟩, ⟨⟨0, 1, 0⟩, 0⟩, ⟨⟨1, 0, 0⟩, 0⟩],
        .ofVertices [⟨⟨0, 0, 0⟩, 0⟩, ⟨⟨1, 0, 0⟩, 0⟩, ⟨⟨0, 0, 1⟩, 0⟩],
        .ofVertices [⟨⟨0, 0, 0⟩, 0⟩, ⟨⟨0, 0, 1⟩, 0⟩, ⟨⟨0, 1, 0⟩, 0⟩],
        .ofVertices [⟨⟨1, 0, 0⟩, 0⟩, ⟨⟨0, 1, 0⟩, 0⟩, ⟨⟨0, 0, 1⟩, 0⟩]] ∧
    motion = ⟨-2, 0, 0, 1, 0, 1, 0, 2, 0, 0, 1, 3, 0, 0, 0, 1⟩ ∧
    (∀ q ∈ m.polygons, IsPlanar q.corners) ∧ newellSum m.polygons = 0 ∧ motion.IsAffine ∧
    motion.linearDet = -2 ∧ m.transform motion = .ok moved ∧ m.volume = 1 / 6 ∧
    moved.volume = 1 / 3 ∧ newellSum moved.polygons = 0 ∧ m.inverse.volume = -1 / 6 := by
  set m : Mesh ℝ := ofPolygons
    [.ofVertices [⟨⟨0, 0, 0⟩, 0⟩, ⟨⟨0, 1, 0⟩, 0⟩, ⟨⟨1, 0, 0⟩, 0⟩],
      .ofVertices [⟨⟨0, 0, 0⟩, 0⟩, ⟨⟨1, 0, 0⟩, 0⟩, ⟨⟨0, 0, 1⟩, 0⟩],
      .ofVertices [⟨⟨0, 0, 0⟩, 0⟩, ⟨⟨0, 0, 1⟩, 0⟩, ⟨⟨0, 1, 0⟩, 0⟩],
      .ofVertices [⟨⟨1, 0, 0⟩, 0⟩, ⟨⟨0, 1, 0⟩, 0⟩, ⟨⟨0, 0, 1⟩, 0⟩]] with hm
  set motion : Mat4 ℝ := ⟨-2, 0, 0, 1, 0, 1, 0, 2, 0, 0, 1, 3, 0, 0, 0, 1⟩ with hmotion
  have hplanar : ∀ q ∈ m.polygons, IsPlanar q.corners := by
    simp only [hm, ofPolygons_polygons, List.forall_mem_cons, List.not_mem_nil, false_imp_iff,
      implies_true, and_true, IsPlanar, Polygon.corners, Polygon.ofVertices, List.map_cons,
      List.map_nil]
    refine ⟨⟨⟨0, 0, 1⟩, ?_⟩, ⟨⟨0, 1, 0⟩, ?_⟩, ⟨⟨1, 0, 0⟩, ?_⟩, ⟨⟨1, 1, 1⟩, ?_⟩⟩ <;>
      simp [Vec3.ext_iff, Vec3.dot]
  have hclosed : newellSum m.polygons = 0 := by
    ext <;> simp [hm, Polygon.corners, Polygon.ofVertices, Outline.newell, Plane.edges, Vec3.cross]
  have haffine : motion.IsAffine := ⟨rfl, rfl, rfl, rfl⟩
  have hdet : motion.linearDet = -2 := by
    simp [hmotion, Mat4.linearDet]
  have hvolume : m.volume = 1 / 6 := by
    simp [hm, volume_eq, Polygon.sixfoldVolume, Polygon.triangles, Polygon.ofVertices,
      Triangle.sixfoldVolume, Vec3.dot, Vec3.cross]
  obtain ⟨moved, hmoved, hscaled, hnewell, hinverse⟩ :=
    volume_transform hplanar hclosed haffine (by rw [hdet]; norm_num)
  refine ⟨m, motion, moved, rfl, rfl, hplanar, hclosed, haffine, hdet, hmoved, hvolume, ?_, hnewell,
    ?_⟩
  · rw [hscaled, hvolume, hdet]
    norm_num
  · rw [hinverse, hvolume]
    norm_num

end Mesh

end Solids
