import Solids.Proofs.Outline
/-!
# Solids.Proofs.Region

**Polygons as sets of points.** A polygon is the convex hull of its corners.

Main definitions:

* `Polygon.region` — the points of a polygon, and `cover` — those of some polygon of
  a list;
* `Polygon.IsConvex` — the corners are in convex position, one after the other;
* `Polygon.PieceOf` — what every polygon that a cut leaves is to the one it was cut
  from. Whatever the corners of a polygon have in common that holds on a convex
  set, the corners of its pieces have too.

The last section is about convex sets alone: two of them that are joined through
a third one fill their common hull.
-/

namespace Solids

open Outline

/-! ### Turning over twice -/

section Twice

variable {K : Type} [Scalar K] (hneg : ∀ a : K, - -a = a)

include hneg

theorem Vec3.neg_neg_of_neg_neg (v : Vec3 K) : - -v = v := by
  show (⟨- -v.x, - -v.y, - -v.z⟩ : Vec3 K) = v
  simp only [hneg]

theorem Plane.flip_flip_of_neg_neg (p : Plane K) : p.flip.flip = p := by
  simp only [flip, Vec3.neg_neg_of_neg_neg hneg, hneg]

theorem Vertex.flip_flip_of_neg_neg (v : Vertex K) : v.flip.flip = v := by
  simp only [flip, Vec3.neg_neg_of_neg_neg hneg]

theorem Polygon.flip_flip_of_neg_neg (q : Polygon K) : q.flip.flip = q := by
  simp [flip, Plane.flip_flip_of_neg_neg hneg, Vertex.flip_flip_of_neg_neg hneg, Function.comp_def]

end Twice

/-! ### Distances -/

namespace Plane

theorem signedDistance_combo (p : Plane ℝ) (a b : Vec3 ℝ) {s t : ℝ} (h : s + t = 1) :
    p.signedDistance (s • a + t • b) = s * p.signedDistance a + t * p.signedDistance b := by
  obtain rfl : s = 1 - t := by linarith
  simp only [signedDistance, Vec3.dot_add, Vec3.dot_smul]
  ring

@[simp] theorem flip_signedDistance (p : Plane ℝ) (x : Vec3 ℝ) :
    p.flip.signedDistance x = -p.signedDistance x := by
  simp only [signedDistance, flip_normal, flip_w, Vec3.neg_dot]
  ring

theorem ground_signedDistance (x : Vec3 ℝ) : (ground : Plane ℝ).signedDistance x = x.z := by
  simp [signedDistance, ground, Vec3.dot, Vec3.unitZ]

@[simp] theorem flip_flip (p : Plane ℝ) : p.flip.flip = p := flip_flip_of_neg_neg neg_neg p

theorem convex_le (p : Plane ℝ) (c : ℝ) : Convex ℝ {x | p.signedDistance x ≤ c} := by
  intro a ha b hb s t hs ht hst
  rw [Set.mem_ofPred_eq, p.signedDistance_combo a b hst]
  have hsa : s * p.signedDistance a ≤ s * c := mul_le_mul_of_nonneg_left ha hs
  have htb : t * p.signedDistance b ≤ t * c := mul_le_mul_of_nonneg_left hb ht
  have hc : s * c + t * c = c := by rw [← add_mul, hst, one_mul]
  linarith

theorem convex_ge (p : Plane ℝ) (c : ℝ) : Convex ℝ {x | c ≤ p.signedDistance x} := by
  have h : {x | c ≤ p.signedDistance x} = {x | p.flip.signedDistance x ≤ -c} := by
    ext x
    simp
  rw [h]
  exact p.flip.convex_le (-c)

theorem convex_abs_le (p : Plane ℝ) (c : ℝ) : Convex ℝ {x | |p.signedDistance x| ≤ c} := by
  have h : {x | |p.signedDistance x| ≤ c}
      = {x | -c ≤ p.signedDistance x} ∩ {x | p.signedDistance x ≤ c} := by
    ext x
    rw [Set.mem_inter_iff, Set.mem_ofPred_eq, Set.mem_ofPred_eq, Set.mem_ofPred_eq, abs_le]
  rw [h]
  exact (p.convex_ge _).inter (p.convex_le _)

end Plane

/-! ### Points of polygons -/

namespace Polygon

/-- The positions of the corners. -/
def corners (q : Polygon ℝ) : List (Vec3 ℝ) := q.vertices.map Vertex.pos

/-- The points of the polygon: the convex hull of its corners. -/
def region (q : Polygon ℝ) : Set (Vec3 ℝ) := convexHull ℝ {x | x ∈ q.corners}

/-- The corners are in one plane and, one after the other, in convex position. -/
def IsConvex (q : Polygon ℝ) : Prop := ∃ n ≠ 0, InOrder n q.corners

theorem convex_region (q : Polygon ℝ) : Convex ℝ q.region := convex_convexHull ℝ _

theorem mem_region_of_mem {q : Polygon ℝ} {x : Vec3 ℝ} (h : x ∈ q.corners) : x ∈ q.region :=
  subset_convexHull ℝ _ h

/-- What holds at every corner, and on a convex set, holds of every point. -/
theorem region_subset {q : Polygon ℝ} {s : Set (Vec3 ℝ)} (hs : Convex ℝ s)
    (h : ∀ x ∈ q.corners, x ∈ s) : q.region ⊆ s := convexHull_min h hs

theorem pos_mem_corners {q : Polygon ℝ} {v : Vertex ℝ} (h : v ∈ q.vertices) :
    v.pos ∈ q.corners := List.mem_map_of_mem h

@[simp] theorem flip_flip (q : Polygon ℝ) : q.flip.flip = q := flip_flip_of_neg_neg neg_neg q

@[simp] theorem flip_corners (q : Polygon ℝ) : q.flip.corners = q.corners.reverse := by
  simp [corners, List.map_reverse, Function.comp_def]

@[simp] theorem flip_region (q : Polygon ℝ) : q.flip.region = q.region := by
  simp [region]

theorem isConvex_of_reverse {q r : Polygon ℝ} (h : r.corners = q.corners.reverse)
    (hq : q.IsConvex) : r.IsConvex := by
  obtain ⟨n, hn, hq⟩ := hq
  exact ⟨-n, neg_ne_zero.mpr hn, by rw [h]; exact hq.reverse⟩

@[simp] theorem isConvex_flip {q : Polygon ℝ} : q.flip.IsConvex ↔ q.IsConvex :=
  ⟨isConvex_of_reverse (by simp), isConvex_of_reverse (by simp)⟩

/-- How `r` is related to a polygon it was cut from: it keeps the plane, is a part
of it, and convex if that is. -/
structure PieceOf (r q : Polygon ℝ) : Prop where
  /-- The plane is kept. -/
  plane_eq : r.plane = q.plane
  /-- No corner is outside. -/
  corner_mem : ∀ x ∈ r.corners, x ∈ q.region
  /-- A piece of a convex polygon is convex. -/
  isConvex : q.IsConvex → r.IsConvex

namespace PieceOf

variable {q r s : Polygon ℝ}

theorem refl (q : Polygon ℝ) : q.PieceOf q := ⟨rfl, fun _ => mem_region_of_mem, id⟩

theorem region_subset (h : r.PieceOf q) : r.region ⊆ q.region :=
  Polygon.region_subset q.convex_region h.corner_mem

theorem trans (h : s.PieceOf r) (h' : r.PieceOf q) : s.PieceOf q where
  plane_eq := h.plane_eq.trans h'.plane_eq
  corner_mem x hx := h'.region_subset (h.corner_mem x hx)
  isConvex hq := h.isConvex (h'.isConvex hq)

theorem flip (h : r.PieceOf q) : r.flip.PieceOf q.flip where
  plane_eq := by rw [flip_plane, flip_plane, h.plane_eq]
  corner_mem x hx := by
    rw [flip_corners, List.mem_reverse] at hx
    rw [flip_region]
    exact h.corner_mem x hx
  isConvex hq := isConvex_flip.mpr (h.isConvex (isConvex_flip.mp hq))

/-- What holds at every corner of a polygon, and on a convex set, holds at every
corner of a piece. -/
theorem forall_corners (h : r.PieceOf q) {t : Set (Vec3 ℝ)} (ht : Convex ℝ t)
    (hq : ∀ x ∈ q.corners, x ∈ t) : ∀ x ∈ r.corners, x ∈ t :=
  fun x hx => Polygon.region_subset ht hq (h.corner_mem x hx)

end PieceOf

end Polygon

/-- The points of some polygon of a list. -/
def cover (polygons : List (Polygon ℝ)) : Set (Vec3 ℝ) := {x | ∃ q ∈ polygons, x ∈ q.region}

theorem mem_cover {polygons : List (Polygon ℝ)} {x : Vec3 ℝ} :
    x ∈ cover polygons ↔ ∃ q ∈ polygons, x ∈ q.region := Iff.rfl

@[simp] theorem cover_nil : cover [] = ∅ := by
  ext x
  simp [mem_cover]

@[simp] theorem cover_append (l r : List (Polygon ℝ)) : cover (l ++ r) = cover l ∪ cover r := by
  ext x
  simp [mem_cover, or_and_right, exists_or]

@[simp] theorem cover_cons (q : Polygon ℝ) (l : List (Polygon ℝ)) :
    cover (q :: l) = q.region ∪ cover l := by
  ext x
  simp [mem_cover]

/-! ### Convex sets joined through a third one -/

section Join

variable {E : Type*} [AddCommGroup E] [Module ℝ E]

theorem segment_subset_union {a b y : E} (hy : y ∈ segment ℝ a b) :
    segment ℝ a b ⊆ segment ℝ a y ∪ segment ℝ y b := by
  rw [← insert_endpoints_openSegment]
  rintro x (rfl | rfl | hx)
  · exact .inl (left_mem_segment ℝ x y)
  · exact .inr (right_mem_segment ℝ y x)
  · rw [segment_eq_image_lineMap] at hy
    rcases openSegment_subset_union a b (Set.image_subset_range _ _ hy) hx with rfl | hx | hx
    · exact .inl (right_mem_segment ℝ a x)
    · exact .inl (openSegment_subset_segment ℝ a y hx)
    · exact .inr (openSegment_subset_segment ℝ y b hx)

/-- The points from which `b` is hidden by a convex set. -/
theorem convex_shadow {k : Set E} (hk : Convex ℝ k) (b : E) :
    Convex ℝ {a | ∃ y ∈ k, y ∈ segment ℝ a b} := by
  rintro a₁ ⟨_, hy₁, s₁, t₁, hs₁, ht₁, hst₁, rfl⟩ a₂ ⟨_, hy₂, s₂, t₂, hs₂, ht₂, hst₂, rfl⟩
    u v hu hv huv
  rcases hs₁.eq_or_lt with rfl | hs₁
  · obtain rfl : t₁ = 1 := by linarith
    exact ⟨b, by simpa using hy₁, right_mem_segment ℝ _ b⟩
  rcases hs₂.eq_or_lt with rfl | hs₂
  · obtain rfl : t₂ = 1 := by linarith
    exact ⟨b, by simpa using hy₂, right_mem_segment ℝ _ b⟩
  -- the two points of `k` are weighed so that the `a`s come out in the ratio `u : v`
  have hd : 0 < u * s₂ + v * s₁ := by
    rcases hu.eq_or_lt with rfl | hu
    · obtain rfl : v = 1 := by linarith
      simpa using hs₁
    · exact add_pos_of_pos_of_nonneg (mul_pos hu hs₂) (mul_nonneg hv hs₁.le)
  have hle : s₁ * s₂ ≤ u * s₂ + v * s₁ := by
    have h1 : u * (s₁ * s₂) ≤ u * s₂ := mul_le_mul_of_nonneg_left (by nlinarith) hu
    have h2 : v * (s₁ * s₂) ≤ v * s₁ := mul_le_mul_of_nonneg_left (by nlinarith) hv
    calc s₁ * s₂ = u * (s₁ * s₂) + v * (s₁ * s₂) := by rw [← add_mul, huv, one_mul]
      _ ≤ u * s₂ + v * s₁ := add_le_add h1 h2
  refine ⟨_, hk hy₁ hy₂ (div_nonneg (mul_nonneg hu hs₂.le) hd.le)
    (div_nonneg (mul_nonneg hv hs₁.le) hd.le) (by rw [← add_div, div_self hd.ne']), ?_⟩
  refine ⟨s₁ * s₂ / (u * s₂ + v * s₁), 1 - s₁ * s₂ / (u * s₂ + v * s₁),
    div_nonneg (mul_pos hs₁ hs₂).le hd.le, sub_nonneg.mpr ((div_le_one hd).mpr hle), by ring, ?_⟩
  have hb : 1 - s₁ * s₂ / (u * s₂ + v * s₁)
      = u * s₂ / (u * s₂ + v * s₁) * t₁ + v * s₁ / (u * s₂ + v * s₁) * t₂ := by
    have hsum : u * s₂ * t₁ + v * s₁ * t₂ = u * s₂ + v * s₁ - s₁ * s₂ := by
      linear_combination u * s₂ * hst₁ + v * s₁ * hst₂ - s₁ * s₂ * huv
    rw [div_mul_eq_mul_div, div_mul_eq_mul_div, ← add_div, hsum, sub_div, div_self hd.ne']
  rw [hb]
  module

/-- If every way from `s` to `t` goes through `k`, then nothing is in the hull of
them all that is not in that of `s` and `k` or in that of `t` and `k`. -/
theorem convexHull_subset_of_join {s t k : Set E} (hk : Convex ℝ k)
    (h : ∀ a ∈ s, ∀ b ∈ t, ∃ y ∈ k, y ∈ segment ℝ a b) :
    convexHull ℝ (s ∪ t ∪ k) ⊆ convexHull ℝ (s ∪ k) ∪ convexHull ℝ (t ∪ k) := by
  have hs : ∀ b ∈ t, ∀ a ∈ convexHull ℝ (s ∪ k), ∃ y ∈ k, y ∈ segment ℝ a b := by
    intro b hb
    refine convexHull_min (Set.union_subset (fun a ha => h a ha b hb) fun a ha => ?_)
      (convex_shadow hk b)
    exact ⟨a, ha, left_mem_segment ℝ a b⟩
  have hst : ∀ a ∈ convexHull ℝ (s ∪ k), ∀ b ∈ convexHull ℝ (t ∪ k),
      ∃ y ∈ k, y ∈ segment ℝ b a := by
    intro a ha
    refine convexHull_min (Set.union_subset (fun b hb => ?_) fun b hb => ?_) (convex_shadow hk a)
    · obtain ⟨y, hy, hyab⟩ := hs b hb a ha
      exact ⟨y, hy, segment_symm ℝ a b ▸ hyab⟩
    · exact ⟨b, hb, left_mem_segment ℝ b a⟩
  refine convexHull_min ?_ ?_
  · refine Set.union_subset (Set.union_subset ?_ ?_) ?_
    · exact fun a ha => .inl (subset_convexHull ℝ _ (.inl ha))
    · exact fun b hb => .inr (subset_convexHull ℝ _ (.inl hb))
    · exact fun y hy => .inl (subset_convexHull ℝ _ (.inr hy))
  · have hjoin : ∀ a ∈ convexHull ℝ (s ∪ k), ∀ b ∈ convexHull ℝ (t ∪ k),
        segment ℝ a b ⊆ convexHull ℝ (s ∪ k) ∪ convexHull ℝ (t ∪ k) := by
      intro a ha b hb
      obtain ⟨y, hy, hyba⟩ := hst a ha b hb
      refine (segment_subset_union (segment_symm ℝ b a ▸ hyba)).trans
        (Set.union_subset_union ?_ ?_)
      · exact (convex_convexHull ℝ _).segment_subset ha (subset_convexHull ℝ _ (.inr hy))
      · exact (convex_convexHull ℝ _).segment_subset (subset_convexHull ℝ _ (.inr hy)) hb
    refine convex_iff_segment_subset.mpr ?_
    rintro a (ha | ha) b (hb | hb)
    · exact ((convex_convexHull ℝ _).segment_subset ha hb).trans Set.subset_union_left
    · exact hjoin a ha b hb
    · rw [segment_symm]
      exact hjoin b hb a ha
    · exact ((convex_convexHull ℝ _).segment_subset ha hb).trans Set.subset_union_right

end Join

end Solids
