import Solids.Proofs.MovedPlane
/-!
# Solids.Proofs.Fan

**The winding of a face and its triangles.** The plane of a face is derived from the edges of its
outline, and what is written to files are the triangles of a fan from its first corner. Added up,
the vector products of the triangles are the normal of the outline, whatever the corners are. Those
of a convex face all point the same way, so none of them is seen from the other side than the face,
and their lengths add up, too.

Main definition: `Vec3.Along` — a vector points along another one, or vanishes.

Main statements:

* `Plane.outlineNormal_eq_sum_edgeProduct` — the normal of an outline, from its triangles;
* `Polygon.IsConvex.exists_along` — the triangles of a convex face point the same way;
* `Polygon.triangles_follow_outline` — what the plane of a face has to do with its triangles.
-/

namespace Solids

open Outline

/-! ### Vectors that point the same way -/

namespace Vec3

variable {n u v : Vec3 ℝ} {l : List (Vec3 ℝ)}

/-- The vector points along `n`, or vanishes. -/
def Along (n v : Vec3 ℝ) : Prop := ∃ k : ℝ, 0 ≤ k ∧ v = k • n

theorem Along.zero (n : Vec3 ℝ) : Along n 0 := ⟨0, le_rfl, (zero_smul ℝ n).symm⟩

theorem Along.add (hu : Along n u) (hv : Along n v) : Along n (u + v) := by
  obtain ⟨j, hj, rfl⟩ := hu
  obtain ⟨k, hk, rfl⟩ := hv
  exact ⟨j + k, add_nonneg hj hk, (add_smul j k n).symm⟩

theorem Along.sum (h : ∀ v ∈ l, Along n v) : Along n l.sum := by
  induction l with
  | nil => exact Along.zero n
  | cons v l ih =>
    rw [List.sum_cons]
    exact (h v List.mem_cons_self).add (ih fun u hu => h u (List.mem_cons_of_mem v hu))

/-- The lengths of vectors that point the same way add up. -/
theorem Along.norm_add (hu : Along n u) (hv : Along n v) : (u + v).norm = u.norm + v.norm := by
  obtain ⟨j, hj, rfl⟩ := hu
  obtain ⟨k, hk, rfl⟩ := hv
  rw [← add_smul, norm_smul, norm_smul, norm_smul, abs_of_nonneg hj, abs_of_nonneg hk,
    abs_of_nonneg (add_nonneg hj hk), add_mul]

theorem Along.norm_sum (h : ∀ v ∈ l, Along n v) : l.sum.norm = (l.map norm).sum := by
  induction l with
  | nil => simp [norm, dot]
  | cons v l ih =>
    have hl : ∀ u ∈ l, Along n u := fun u hu => h u (List.mem_cons_of_mem v hu)
    rw [List.sum_cons, (h v List.mem_cons_self).norm_add (Along.sum hl), ih hl, List.map_cons,
      List.sum_cons]

theorem Along.norm_le_norm_sum (h : ∀ v ∈ l, Along n v) (hv : v ∈ l) : v.norm ≤ l.sum.norm := by
  rw [norm_sum h]
  refine List.single_le_sum ?_ _ (List.mem_map_of_mem hv)
  intro x hx
  obtain ⟨u, -, rfl⟩ := List.mem_map.mp hx
  exact norm_nonneg u

/-- Whatever points along `n` has the unit vector along it. -/
theorem Along.normalize_eq (h : Along n v) (hpos : 0 < v.norm) : v.normalize = n.normalize := by
  obtain ⟨k, hk, rfl⟩ := h
  refine normalize_smul (hk.lt_of_ne fun hzero => hpos.ne' ?_) n
  rw [← hzero, norm_smul, abs_zero, zero_mul]

end Vec3

/-! ### The normal of an outline -/

namespace Outline

theorem newell_eq_of_isRotated {l r : List (Vec3 ℝ)} (h : l.IsRotated r) : newell l = newell r :=
  ((edges_perm_of_isRotated h).map _).sum_eq

/-- An outline that is moved without being turned keeps its Newell vector. -/
theorem newell_translate (t : Vec3 ℝ) (l : List (Vec3 ℝ)) :
    newell (l.map fun x => x + t) = newell l := by
  refine Vec3.eq_of_dot_eq fun n => ?_
  rw [dot_newell n (0 + t), dot_newell n 0, area, area, edges_map, List.map_map]
  refine congrArg List.sum (List.map_congr_left fun e _ => ?_)
  simp [Vec3.turn]

end Outline

namespace Plane

/-- The normal of an outline is the sum over the fan of triangles from its first corner. -/
theorem outlineNormal_eq_sum_edgeProduct (q : Polygon ℝ) :
    outlineNormal q.vertices = (q.triangles.map Triangle.edgeProduct).sum := by
  obtain ⟨vertices, plane⟩ := q
  cases vertices with
  | nil => rfl
  | cons first rest =>
    refine Vec3.eq_of_dot_eq fun n => ?_
    rw [outlineNormal_eq_newell, dot_newell n first.pos,
      ← Polygon.sum_turn_triangles n first rest plane, Vec3.dot_sum, List.map_map]
    rfl

theorem ofVertices_normal {l : List (Vertex ℝ)} (hthree : 3 ≤ l.length)
    (hlarge : Scalar.epsilon < (outlineNormal l).norm) :
    (ofVertices l).normal = (outlineNormal l).normalize := by
  rw [ofVertices, if_neg (not_lt.mpr hthree), Vec3.normalize?_of_lt hlarge]

end Plane

/-! ### The triangles of a face -/

theorem Triangle.facetNormal_of_lt {t : Triangle ℝ} (h : Scalar.epsilon < t.edgeProduct.norm) :
    t.facetNormal = t.edgeProduct.normalize := by
  rw [facetNormal, Vec3.normalize?_of_lt h]
  rfl

namespace Polygon

variable {q : Polygon ℝ} {t : Triangle ℝ}

/-- The corners of a triangle are corners of the face, in the same order. -/
theorem sublist_of_mem_triangles (h : t ∈ q.triangles) : t.toList.Sublist q.vertices := by
  obtain ⟨vertices, plane⟩ := q
  cases vertices with
  | nil => cases h
  | cons first rest =>
    obtain ⟨⟨b, c⟩, hmem, rfl⟩ := List.mem_map.mp h
    have hpair : ∀ l : List (Vertex ℝ), (b, c) ∈ l.zip l.tail → [b, c].Sublist l := by
      intro l hl
      induction l with
      | nil => cases hl
      | cons u l ih =>
        cases l with
        | nil => cases hl
        | cons v l =>
          rcases List.mem_cons.mp hl with heq | hl
          · obtain ⟨rfl, rfl⟩ := Prod.mk.inj heq
            exact ((List.nil_sublist l).cons_cons c).cons_cons b
          · exact (ih hl).cons u
    exact (hpair rest hmem).cons_cons first

theorem three_le_of_mem_triangles (h : t ∈ q.triangles) : 3 ≤ q.vertices.length :=
  (sublist_of_mem_triangles h).length_le

/-- The triangles of a convex face point the same way. -/
theorem IsConvex.exists_along (h : q.IsConvex) :
    ∃ n : Vec3 ℝ, ∀ v ∈ q.triangles.map Triangle.edgeProduct, Vec3.Along n v := by
  obtain ⟨n, hn, horder⟩ := h
  have hself := Vec3.dot_self_pos hn
  refine ⟨n, fun v hv => ?_⟩
  obtain ⟨t, ht, rfl⟩ := List.mem_map.mp hv
  have hcorners := (sublist_of_mem_triangles ht).map Vertex.pos
  have hlevel : ∀ x ∈ t.toList.map Vertex.pos, n.dot (x - t.a.pos) = 0 := by
    intro x hx
    rw [Vec3.dot_sub, sub_eq_zero]
    exact horder.level x (hcorners.subset hx) t.a.pos (hcorners.subset List.mem_cons_self)
  have hcross := Vec3.dot_self_smul_cross (hlevel t.b.pos (by simp [Triangle.toList]))
    (hlevel t.c.pos (by simp [Triangle.toList]))
  refine ⟨(n.dot n)⁻¹ * n.dot t.edgeProduct, ?_, ?_⟩
  · exact mul_nonneg (inv_pos.mpr hself).le (horder.turns _ _ _ hcorners)
  · rw [mul_smul, Triangle.edgeProduct, ← hcross, inv_smul_smul₀ hself.ne']

/-- The area of a convex face is half the length of the normal of its outline. -/
theorem IsConvex.doubledArea_eq (h : q.IsConvex) :
    q.doubledArea = (Plane.outlineNormal q.vertices).norm := by
  obtain ⟨n, halong⟩ := h.exists_along
  rw [Plane.outlineNormal_eq_sum_edgeProduct, Vec3.Along.norm_sum halong, List.map_map]
  exact Scalar.sum_real _

/-- No triangle of a convex face is larger than the face. -/
theorem IsConvex.norm_edgeProduct_le (h : q.IsConvex) (ht : t ∈ q.triangles) :
    t.edgeProduct.norm ≤ (Plane.outlineNormal q.vertices).norm := by
  obtain ⟨n, halong⟩ := h.exists_along
  rw [Plane.outlineNormal_eq_sum_edgeProduct]
  exact Vec3.Along.norm_le_norm_sum halong (List.mem_map_of_mem ht)

/-- A triangle of a convex face that has an area is seen from the same side as the face. -/
theorem IsConvex.normalize_edgeProduct (h : q.IsConvex) (ht : t ∈ q.triangles)
    (hpos : 0 < t.edgeProduct.norm) :
    t.edgeProduct.normalize = (Plane.outlineNormal q.vertices).normalize := by
  have hlarge := hpos.trans_le (h.norm_edgeProduct_le ht)
  obtain ⟨n, halong⟩ := h.exists_along
  rw [Plane.outlineNormal_eq_sum_edgeProduct] at hlarge ⊢
  rw [(halong _ (List.mem_map_of_mem ht)).normalize_eq hpos,
    (Vec3.Along.sum halong).normalize_eq hlarge]

/-- The normal that is written with a triangle of a convex face is the normal of the plane that is
derived from the outline. -/
theorem IsConvex.facetNormal_eq (h : q.IsConvex) (ht : t ∈ q.triangles)
    (hlarge : Scalar.epsilon < t.edgeProduct.norm) :
    t.facetNormal = (Plane.ofVertices q.vertices).normal := by
  rw [Triangle.facetNormal_of_lt hlarge,
    h.normalize_edgeProduct ht (Scalar.epsilon_pos.trans hlarge),
    Plane.ofVertices_normal (three_le_of_mem_triangles ht)
      (hlarge.trans_le (h.norm_edgeProduct_le ht))]

/-- **The winding of a face and its triangles.** The normal of an outline is the sum of the vector
products of its triangles, wherever the corners are. It stays the same when all corners are moved
by one vector and when the outline is begun elsewhere, and is turned round when the outline is run
backwards. A convex face is as large as the normal of its outline is long. Each of its triangles
that has an area points the same way as the outline, and one that is large enough for a normal of
its own is written with that of the plane which is derived from the outline. The outline then is
large enough, too. -/
theorem triangles_follow_outline (q : Polygon ℝ) :
    Plane.outlineNormal q.vertices = (q.triangles.map Triangle.edgeProduct).sum ∧
    (∀ move : Vec3 ℝ, Plane.outlineNormal (q.vertices.map fun v => { v with pos := v.pos + move }) =
      Plane.outlineNormal q.vertices) ∧
    (∀ corners : List (Vertex ℝ), corners.IsRotated q.vertices →
      Plane.outlineNormal corners = Plane.outlineNormal q.vertices) ∧
    Plane.outlineNormal q.vertices.reverse = -Plane.outlineNormal q.vertices ∧
    (q.IsConvex → q.doubledArea = (Plane.outlineNormal q.vertices).norm ∧
      ∀ t ∈ q.triangles,
        (0 < t.edgeProduct.norm →
          t.edgeProduct.normalize = (Plane.outlineNormal q.vertices).normalize) ∧
        (Scalar.epsilon < t.edgeProduct.norm →
          Scalar.epsilon < (Plane.outlineNormal q.vertices).norm ∧
          t.facetNormal = (Plane.ofVertices q.vertices).normal)) := by
  refine ⟨Plane.outlineNormal_eq_sum_edgeProduct q, ?moved, ?begun, ?reversed, ?convex⟩
  case moved =>
    intro move
    rw [Plane.outlineNormal_eq_newell, Plane.outlineNormal_eq_newell,
      ← newell_translate move (q.vertices.map Vertex.pos), List.map_map, List.map_map]
    rfl
  case begun =>
    intro corners h
    rw [Plane.outlineNormal_eq_newell, Plane.outlineNormal_eq_newell]
    exact newell_eq_of_isRotated (h.map Vertex.pos)
  case reversed =>
    rw [Plane.outlineNormal_eq_newell, Plane.outlineNormal_eq_newell, List.map_reverse,
      newell_reverse]
  case convex =>
    intro h
    refine ⟨h.doubledArea_eq, fun t ht => ⟨h.normalize_edgeProduct ht, fun hlarge => ?_⟩⟩
    exact ⟨hlarge.trans_le (h.norm_edgeProduct_le ht), h.facetNormal_eq ht hlarge⟩

/-- A triangle of the ground plane with a corner in the middle of one edge. -/
noncomputable def bentTriangle : Polygon ℝ :=
  ofVertices [⟨⟨-1, 0, 0⟩, Vec3.unitX⟩, ⟨⟨0, 0, 0⟩, Vec3.unitX⟩, ⟨⟨1, 0, 0⟩, Vec3.unitX⟩,
    ⟨⟨0, 1, 0⟩, Vec3.unitX⟩]

theorem isConvex_bentTriangle : bentTriangle.IsConvex := by
  obtain ⟨n, hn, horder⟩ := isConvex_three (n := Vec3.unitZ) (a := ⟨⟨-1, 0, 0⟩, Vec3.unitX⟩)
    (b := ⟨⟨1, 0, 0⟩, Vec3.unitX⟩) (c := ⟨⟨0, 1, 0⟩, Vec3.unitX⟩) (p := Plane.ground)
    (fun h => one_ne_zero (congrArg Vec3.z h)) (by simp [Vec3.dot, Vec3.unitZ])
    (by simp [Vec3.dot, Vec3.unitZ]) (by simp [Vec3.turn, Vec3.dot, Vec3.cross, Vec3.unitZ])
  have hmiddle : (⟨0, 0, 0⟩ : Vec3 ℝ) ∈ segment ℝ ⟨-1, 0, 0⟩ ⟨1, 0, 0⟩ := by
    refine ⟨1 / 2, 1 / 2, by norm_num, by norm_num, by norm_num, ?_⟩
    ext <;> norm_num
  exact ⟨n, hn, horder.insert (l := []) hmiddle⟩

/-- The corner in the middle of the edge makes a triangle with no area, which is written with the
normal that its first corner keeps. The other triangle is written with that of the plane. -/
theorem triangles_follow_outline_bentTriangle : ∃ flat large : Triangle ℝ,
    bentTriangle.IsConvex ∧ bentTriangle.triangles = [flat, large] ∧
    flat.edgeProduct = 0 ∧ flat.facetNormal = Vec3.unitX ∧
    large.edgeProduct = (2 : ℝ) • Vec3.unitZ ∧ Scalar.epsilon < large.edgeProduct.norm ∧
    Plane.outlineNormal bentTriangle.vertices = (2 : ℝ) • Vec3.unitZ ∧
    bentTriangle.doubledArea = 2 ∧ large.facetNormal = bentTriangle.plane.normal ∧
    bentTriangle.plane.normal = Vec3.unitZ := by
  obtain ⟨hsum, -, -, -, hconvex⟩ := triangles_follow_outline bentTriangle
  obtain ⟨harea, htriangles⟩ := hconvex isConvex_bentTriangle
  have hunit : (Vec3.unitZ : Vec3 ℝ).dot Vec3.unitZ = 1 := by simp [Vec3.dot, Vec3.unitZ]
  have hnorm : ((2 : ℝ) • (Vec3.unitZ : Vec3 ℝ)).norm = 2 :=
    Vec3.norm_smul_of_unit (by norm_num) hunit
  have hflat : Triangle.edgeProduct (K := ℝ) ⟨⟨⟨-1, 0, 0⟩, Vec3.unitX⟩, ⟨⟨0, 0, 0⟩, Vec3.unitX⟩,
      ⟨⟨1, 0, 0⟩, Vec3.unitX⟩⟩ = 0 := by
    ext <;> simp [Triangle.edgeProduct, Vec3.cross]
  have hlarge : Triangle.edgeProduct (K := ℝ) ⟨⟨⟨-1, 0, 0⟩, Vec3.unitX⟩, ⟨⟨1, 0, 0⟩, Vec3.unitX⟩,
      ⟨⟨0, 1, 0⟩, Vec3.unitX⟩⟩ = (2 : ℝ) • Vec3.unitZ := by
    ext <;> simp [Triangle.edgeProduct, Vec3.cross, Vec3.unitZ]
    norm_num
  have hlong : Scalar.epsilon < ((2 : ℝ) • (Vec3.unitZ : Vec3 ℝ)).norm := by
    rw [hnorm, Scalar.epsilon_real]
    norm_num
  have houtline : Plane.outlineNormal bentTriangle.vertices = (2 : ℝ) • Vec3.unitZ := by
    rw [hsum, bentTriangle, ofVertices, triangles]
    simp [hflat, hlarge]
  obtain ⟨-, hwritten⟩ := htriangles _ (List.mem_cons_of_mem _ List.mem_cons_self)
  have hfacet := (hwritten (hlarge ▸ hlong)).2
  refine ⟨_, _, isConvex_bentTriangle, rfl, hflat, ?_, hlarge, hlarge ▸ hlong, houtline, ?_, hfacet,
    ?_⟩
  · rw [Triangle.facetNormal, hflat, Vec3.normalize?_of_le]
    · rfl
    · rw [Scalar.epsilon_real, Vec3.norm, Vec3.dot]
      norm_num
  · rw [harea, houtline, hnorm]
  · have hone : (Vec3.unitZ : Vec3 ℝ).norm = 1 := by simp [Vec3.norm, Vec3.dot, Vec3.unitZ]
    have hthree : 3 ≤ bentTriangle.vertices.length := by simp [bentTriangle, ofVertices]
    have hnormal := Plane.ofVertices_normal hthree (houtline ▸ hlong)
    rwa [houtline, Vec3.normalize_smul (by norm_num), Vec3.normalize_of_norm_eq_one hone]
      at hnormal

end Polygon

end Solids
