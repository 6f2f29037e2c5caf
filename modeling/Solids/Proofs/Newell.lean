import Solids.Proofs.Faces
/-!
# Solids.Proofs.Newell

**Newell vectors.** The sum of the vector products along a closed outline points to the side from
which the outline runs counter-clockwise, and is twice as long as the area is large. It is the
normal that planes are derived from, and the volume between a polygon and the origin can be read
off it.

Main definitions:

* `Outline.newell` — the Newell vector of an outline;
* `Outline.IsPlanar` — all corners are in one plane, whatever plane the polygon carries.

Main statements:

* `Plane.outlineNormal_eq_newell` — the normal that is derived from an outline is this vector;
* `Polygon.sixfoldVolume_eq_dot_newell` — the volume under a planar polygon, from any corner.

That it changes sign when the outline is run backwards is taken over from areas: seen against a
direction it is one.
-/

namespace Solids

/-! ### Vectors and their products -/

namespace Vec3

/-- A vector is known by its products. -/
theorem eq_of_dot_eq {a b : Vec3 ℝ} (h : ∀ n : Vec3 ℝ, n.dot a = n.dot b) : a = b := by
  have hself : (a - b).dot (a - b) = 0 := by rw [dot_sub, h, sub_self]
  exact sub_eq_zero.mp (dot_self_eq_zero.mp hself)

theorem dot_sum (n : Vec3 ℝ) (l : List (Vec3 ℝ)) : n.dot l.sum = (l.map n.dot).sum := by
  induction l with
  | nil => simp
  | cons v l ih => rw [List.sum_cons, dot_add, ih, List.map_cons, List.sum_cons]

@[simp] theorem dot_neg (n a : Vec3 ℝ) : n.dot (-a) = -n.dot a := by
  rw [dot_comm, neg_dot, dot_comm]

end Vec3

namespace Outline

open Vec3

variable {l : List (Vec3 ℝ)} {x y : Vec3 ℝ}

/-! ### Newell vectors -/

/-- The sum of the vector products of each corner with the next one. -/
noncomputable def newell (l : List (Vec3 ℝ)) : Vec3 ℝ :=
  ((Plane.edges l).map fun e => e.1.cross e.2).sum

@[simp] theorem newell_nil : newell [] = 0 := rfl

/-- Along a direction the Newell vector is the area as seen against it. -/
theorem dot_newell (n o : Vec3 ℝ) (l : List (Vec3 ℝ)) : n.dot (newell l) = area n o l := by
  rw [area_base n o 0, newell, dot_sum, List.map_map, area]
  simp [turn, Function.comp_def]

@[simp] theorem newell_reverse (l : List (Vec3 ℝ)) : newell l.reverse = -newell l :=
  eq_of_dot_eq fun n => by rw [dot_neg, dot_newell n 0, dot_newell n 0, area_reverse]

/-- Round a closed outline nothing is gained. -/
theorem sum_sub_edges {α : Type} (f : α → Vec3 ℝ) (l : List α) :
    ((Plane.edges l).map fun e => f e.1 - f e.2).sum = 0 := by
  have hwalk : ∀ (u z : α) (mid : List α),
      ((walk u mid z).map fun e => f e.1 - f e.2).sum = f u - f z := by
    intro u z mid
    induction mid generalizing u with
    | nil => simp
    | cons v mid ih => simp [ih]
  cases l with
  | nil => rfl
  | cons u mid => rw [edges_cons, hwalk, sub_self]

/-! ### Outlines in one plane -/

/-- All corners are equally far along some direction. -/
def IsPlanar (l : List (Vec3 ℝ)) : Prop :=
  ∃ n : Vec3 ℝ, n ≠ 0 ∧ ∀ a ∈ l, ∀ b ∈ l, n.dot a = n.dot b

/-- The corners of a planar outline are equally far along its Newell vector, too. -/
theorem IsPlanar.dot_newell_eq (h : IsPlanar l) (hx : x ∈ l) (hy : y ∈ l) :
    x.dot (newell l) = y.dot (newell l) := by
  obtain ⟨n, hn, hlevel⟩ := h
  have hacross : ∀ a ∈ l, n.dot (a - y) = 0 := by
    intro a ha
    rw [dot_sub, hlevel a ha y hy, sub_self]
  -- seen from `y`, every edge spans a triangle across `n`, and so does the way from `y` to `x`
  have harea : area (x - y) y l = 0 := by
    refine List.sum_eq_zero fun t ht => ?_
    obtain ⟨e, he, rfl⟩ := List.mem_map.mp ht
    obtain ⟨hfirst, hsecond⟩ := mem_of_mem_edges he
    exact dot_cross_eq_zero hn (hacross x hx) (hacross e.1 hfirst) (hacross e.2 hsecond)
  rw [← sub_eq_zero, dot_comm x, dot_comm y, ← dot_sub, dot_comm, dot_newell (x - y) y, harea]

theorem IsPlanar.reverse (h : IsPlanar l) : IsPlanar l.reverse := by
  obtain ⟨n, hn, hlevel⟩ := h
  exact ⟨n, hn, fun a ha b hb => hlevel a (List.mem_reverse.mp ha) b (List.mem_reverse.mp hb)⟩

end Outline

open Outline

/-- The normal that is derived from an outline is its Newell vector. -/
theorem Plane.outlineNormal_eq_newell (corners : List (Vertex ℝ)) :
    outlineNormal corners = newell (corners.map Vertex.pos) := by
  have hterm (a b : Vec3 ℝ) : edgeTerm a b = a.cross b
      + ((⟨a.y * a.z, a.z * a.x, a.x * a.y⟩ : Vec3 ℝ) - ⟨b.y * b.z, b.z * b.x, b.x * b.y⟩) := by
    ext <;> simp [edgeTerm, Vec3.cross] <;> ring
  have hfold : ∀ (edges : List (Vertex ℝ × Vertex ℝ)) (s : Vec3 ℝ),
      edges.foldl (fun n e => n + edgeTerm e.1.pos e.2.pos) s
        = s + (edges.map fun e => edgeTerm e.1.pos e.2.pos).sum := by
    intro edges
    induction edges with
    | nil => simp
    | cons e edges ih =>
      intro s
      rw [List.foldl_cons, ih, List.map_cons, List.sum_cons, add_assoc]
  have hclosed := sum_sub_edges (fun v : Vertex ℝ =>
    (⟨v.pos.y * v.pos.z, v.pos.z * v.pos.x, v.pos.x * v.pos.y⟩ : Vec3 ℝ)) corners
  rw [outlineNormal, hfold, zero_add, newell, edges_map, List.map_map]
  simp only [hterm, List.sum_map_add, hclosed, add_zero]
  rfl

/-! ### Volumes -/

namespace Polygon

variable {q : Polygon ℝ} {x : Vec3 ℝ}

/-- The volume under a planar polygon, from any of its corners. -/
theorem sixfoldVolume_eq_dot_newell (h : IsPlanar q.corners) (hx : x ∈ q.corners) :
    q.sixfoldVolume = x.dot (newell q.corners) := by
  obtain ⟨vertices, plane⟩ := q
  cases vertices with
  | nil => cases hx
  | cons first rest =>
    have hfirst : first.pos ∈ corners ⟨first :: rest, plane⟩ := List.mem_cons_self
    rw [h.dot_newell_eq hx hfirst, dot_newell first.pos first.pos, corners,
      ← sum_turn_triangles first.pos first rest plane, sixfoldVolume]
    refine congrArg List.sum (List.map_congr_left fun t ht => ?_)
    obtain ⟨e, -, rfl⟩ := List.mem_map.mp ht
    simp only [Triangle.sixfoldVolume, Vec3.turn, Vec3.dot, Vec3.cross, Vec3.sub_x, Vec3.sub_y,
      Vec3.sub_z]
    ring

theorem sixfoldVolume_of_corners_eq_nil (h : q.corners = []) : q.sixfoldVolume = 0 := by
  obtain ⟨vertices, plane⟩ := q
  obtain rfl : vertices = [] := List.map_eq_nil_iff.mp h
  rfl

end Polygon

/-- The Newell vectors of some faces, added up. They cancel out where the faces close up. -/
noncomputable def newellSum (polygons : List (Polygon ℝ)) : Vec3 ℝ :=
  (polygons.map fun q => newell q.corners).sum

@[simp] theorem newellSum_nil : newellSum [] = 0 := rfl

@[simp] theorem newellSum_cons (q : Polygon ℝ) (l : List (Polygon ℝ)) :
    newellSum (q :: l) = newell q.corners + newellSum l := List.sum_cons

end Solids
