import Solids.Proofs.Slab
/-!
# Solids.Proofs.Surface

**The surfaces of unions, differences and intersections.** Of the points on one
operand that are clear of the other's tree, each operation keeps exactly those that
bound its result: a union those outside the other solid, an intersection those
inside, a difference those of the first operand outside the second and those of the
second inside the first.

Main statement: `Mesh.isSurface_of_meets`.
-/

namespace Solids

namespace Tree

variable {eps : ℝ} {levels : ℕ} {a b : List (Polygon ℝ)} {ta tb : Tree ℝ} {x : Vec3 ℝ}

/-! ### Trees of convex polygons -/

/-- The tree of some convex polygons: it holds them, cut as it may be, and no point of
them is clear of it. -/
structure IsTreeOf (eps : ℝ) (source : List (Polygon ℝ)) (t : Tree ℝ) : Prop where
  /-- It holds what was made of them. -/
  operand : t.IsOperand eps source
  /-- They are convex. -/
  convex : ∀ q ∈ source, q.IsConvex
  /-- It holds every point of them. -/
  cover_eq : cover t.polygons = cover source
  /-- Every point of them is near a plane of the tree. -/
  not_clear : ∀ x ∈ cover source, ¬ t.Clear eps x

/-- A tree that was built is the tree of what it was built from. -/
theorem IsOperand.isTreeOf (heps : Scalar.epsilon ≤ eps) (hne : a ≠ [])
    (hconvex : ∀ q ∈ a, q.IsConvex) (h : ofPolygons eps levels a = some ta)
    (hoperand : ta.IsOperand eps a) : ta.IsTreeOf eps a := by
  rw [ofPolygons_eq hne] at h
  have hcover : cover ta.polygons = cover a := by
    simpa using cover_insert heps h hconvex
  refine ⟨hoperand, hconvex, hcover, ?_⟩
  rw [← hcover]
  rintro x ⟨r, hr, hx⟩ hclear
  obtain ⟨-, p, hp, hnear⟩ := (mem_or_near_of_mem_insert heps h hr).resolve_left (by simp)
  have hle : |p.signedDistance x| ≤ eps := Polygon.region_subset (p.convex_abs_le eps) hnear hx
  exact (hclear p hp).not_ge hle

/-! ### Points of what is kept -/

theorem mem_cover_keptByUnion_fst (heps : Scalar.epsilon ≤ eps) (ha : ta.IsOperand eps a)
    (hb : tb.IsOperand eps b) (hconvex : ∀ q ∈ a, q.IsConvex) (hclear : tb.Clear eps x) :
    x ∈ cover (keptByUnion eps ta tb).1.polygons ↔ x ∈ cover ta.polygons ∧ ¬ tb.Inside x :=
  ha.mem_cover_clipTo heps hb hconvex hclear

theorem mem_cover_keptByUnion_snd (heps : Scalar.epsilon ≤ eps) (ha : ta.IsOperand eps a)
    (hb : tb.IsOperand eps b) (hconvex : ∀ q ∈ b, q.IsConvex) (hclear : ta.Clear eps x) :
    x ∈ cover (keptByUnion eps ta tb).2.polygons ↔ x ∈ cover tb.polygons ∧ ¬ ta.Inside x := by
  rw [keptByUnion_eq, cover_invert, (hb.clipTo heps).invert.mem_cover_clipTo heps ha hconvex hclear,
    cover_invert, hb.mem_cover_clipTo heps ha hconvex hclear]
  tauto

theorem mem_cover_keptByIntersection_fst (heps : Scalar.epsilon ≤ eps) (ha : ta.IsOperand eps a)
    (hb : tb.IsOperand eps b) (hconvex : ∀ q ∈ a, q.IsConvex) (hclear : tb.Clear eps x) :
    x ∈ cover (keptByIntersection eps ta tb).1.polygons ↔ x ∈ cover ta.polygons ∧ tb.Inside x := by
  rw [keptByIntersection_eq, ha.invert.mem_cover_clipTo heps hb.invert hconvex
    (clear_invert.mpr hclear), cover_invert, hb.inside_invert heps hclear, not_not]

theorem mem_cover_keptByIntersection_snd (heps : Scalar.epsilon ≤ eps) (ha : ta.IsOperand eps a)
    (hb : tb.IsOperand eps b) (hconvex : ∀ q ∈ b, q.IsConvex) (hclear : ta.Clear eps x) :
    x ∈ cover (keptByIntersection eps ta tb).2.polygons ↔ x ∈ cover tb.polygons ∧ ta.Inside x := by
  have hclear' : ta.invert.Clear eps x := clear_invert.mpr hclear
  rw [keptByIntersection_eq, (hb.clipTo heps).invert.mem_cover_clipTo heps ha.invert hconvex
    hclear', cover_invert, hb.mem_cover_clipTo heps ha.invert hconvex hclear',
    ha.inside_invert heps hclear]
  tauto

end Tree

/-! ### The surfaces of the results -/

/-- The polygons `result` are parts of those of `a` and `b`, whose trees are `ta` and
`tb`. Of the points of `a` that are clear of `tb` they have those with `fromA`, and of
the points of `b` that are clear of `ta` those with `fromB`. -/
structure IsSurface (eps : ℝ) (a b : List (Polygon ℝ)) (ta tb : Tree ℝ)
    (fromA fromB : Vec3 ℝ → Prop) (result : List (Polygon ℝ)) : Prop where
  /-- Every polygon is a part of one of `a` or of `b`. -/
  contained : ∀ q ∈ result, ∃ o ∈ a ++ b, q.region ⊆ o.region
  /-- What is kept of `a`. -/
  first : ∀ x ∈ cover a, tb.Clear eps x → (x ∈ cover result ↔ fromA x)
  /-- What is kept of `b`. -/
  second : ∀ x ∈ cover b, ta.Clear eps x → (x ∈ cover result ↔ fromB x)

namespace Tree

variable {eps : ℝ} {levels : ℕ} {a b : List (Polygon ℝ)} {ta tb joined : Tree ℝ}
  {kept : Tree ℝ × Tree ℝ}

/-- What was kept of either operand is joined, and its surface is what was kept. -/
theorem exists_isSurface_insert (fromA fromB : Vec3 ℝ → Prop) (heps : Scalar.epsilon ≤ eps)
    (ha : ta.IsTreeOf eps a) (hb : tb.IsTreeOf eps b) (hlevels : a.length + b.length ≤ levels)
    (hkept : kept.1.IsOperand eps a ∧ kept.2.IsOperand eps b)
    (hfirst : ∀ x, tb.Clear eps x → (x ∈ cover kept.1.polygons ↔ x ∈ cover a ∧ fromA x))
    (hsecond : ∀ x, ta.Clear eps x → (x ∈ cover kept.2.polygons ↔ x ∈ cover b ∧ fromB x)) :
    ∃ joined, kept.1.insert eps levels kept.2.polygons = some joined ∧
      IsSurface eps a b ta tb fromA fromB joined.polygons := by
  obtain ⟨joined, hjoined⟩ := hkept.1.exists_insert heps hkept.2 hlevels
  have hcover : cover joined.polygons = cover kept.1.polygons ∪ cover kept.2.polygons :=
    cover_insert heps hjoined fun q hq => (hkept.2.madeOf q hq).isConvex hb.convex
  refine ⟨joined, hjoined, fun q hq => ?_, fun x hx hclear => ?_, fun x hx hclear => ?_⟩
  · rcases hkept.1.madeOf_insert heps hkept.2 hjoined hq with h | h
    · obtain ⟨o, ho, hregion, -⟩ := h.origin
      exact ⟨o, List.mem_append_left b ho, hregion⟩
    · obtain ⟨o, ho, hregion, -⟩ := h.origin
      exact ⟨o, List.mem_append_right a ho, hregion⟩
  · have hnot : x ∉ cover kept.2.polygons := fun h =>
      hb.not_clear x (hkept.2.cover_subset h) hclear
    rw [hcover, Set.mem_union, hfirst x hclear]
    simp [hx, hnot]
  · have hnot : x ∉ cover kept.1.polygons := fun h =>
      ha.not_clear x (hkept.1.cover_subset h) hclear
    rw [hcover, Set.mem_union, hsecond x hclear]
    simp [hx, hnot]

/-- A result that is turned over has the same points. -/
theorem isSurface_invert (h : IsSurface eps a b ta tb fromA fromB joined.polygons) :
    IsSurface eps a b ta tb fromA fromB joined.invert.polygons where
  contained r hr := by
    obtain ⟨q, hq, rfl⟩ := mem_polygons_invert.mp hr
    rw [Polygon.flip_region]
    exact h.contained q hq
  first := by simpa using h.first
  second := by simpa using h.second

end Tree

namespace Mesh

open Solids.Tree

variable {s : Settings ℝ} {a b : Mesh ℝ}

/-- **What the operations do to surfaces.** Two meshes of convex polygons that fit
their planes, and whose bounding boxes meet, have trees and a union, a difference and
an intersection, and the surface of each result is the part of theirs that it should
be. -/
theorem isSurface_of_meets (heps : Scalar.epsilon ≤ s.tolerance) (hmeets : meets a b = true)
    (hpolygons : ∀ q ∈ a.polygons ++ b.polygons, q.IsConvex ∧ q.Fits s.tolerance)
    (hlevels : a.polygons.length + b.polygons.length ≤ s.levels) :
    ∃ ta tb u d i, a.tree? s = some ta ∧ b.tree? s = some tb ∧
      union s a b = some u ∧ difference s a b = some d ∧ intersection s a b = some i ∧
      IsSurface s.tolerance a.polygons b.polygons ta tb
        (fun x => ¬ tb.Inside x) (fun x => ¬ ta.Inside x) u.polygons ∧
      IsSurface s.tolerance a.polygons b.polygons ta tb
        (fun x => ¬ tb.Inside x) (fun x => ta.Inside x) d.polygons ∧
      IsSurface s.tolerance a.polygons b.polygons ta tb
        (fun x => tb.Inside x) (fun x => ta.Inside x) i.polygons := by
  obtain ⟨hnea, hneb⟩ := ne_nil_of_meets hmeets
  have hpolygonsA := fun q hq => hpolygons q (List.mem_append_left _ hq)
  have hpolygonsB := fun q hq => hpolygons q (List.mem_append_right _ hq)
  obtain ⟨ta, hta, hoperandA⟩ := exists_tree? heps hnea (fun q hq => (hpolygonsA q hq).2) (by omega)
  obtain ⟨tb, htb, hoperandB⟩ := exists_tree? heps hneb (fun q hq => (hpolygonsB q hq).2) (by omega)
  have ha := hoperandA.isTreeOf heps hnea (fun q hq => (hpolygonsA q hq).1) hta
  have hb := hoperandB.isTreeOf heps hneb (fun q hq => (hpolygonsB q hq).1) htb
  obtain ⟨ju, hju, hu⟩ := exists_isSurface_insert (fun x => ¬ tb.Inside x)
    (fun x => ¬ ta.Inside x) heps ha hb hlevels (hoperandA.keptByUnion heps hoperandB)
    (fun x hclear => by
      rw [mem_cover_keptByUnion_fst heps hoperandA hoperandB ha.convex hclear, ha.cover_eq])
    (fun x hclear => by
      rw [mem_cover_keptByUnion_snd heps hoperandA hoperandB hb.convex hclear, hb.cover_eq])
  obtain ⟨jd, hjd, hd⟩ := exists_isSurface_insert (fun x => ¬ tb.Inside x)
    (fun x => ta.Inside x) heps ha hb hlevels
    (hoperandA.keptByDifference heps hoperandB)
    (fun x hclear => by
      rw [keptByDifference, mem_cover_keptByUnion_fst heps hoperandA.invert hoperandB ha.convex
        hclear, cover_invert, ha.cover_eq])
    (fun x hclear => by
      rw [keptByDifference, mem_cover_keptByUnion_snd heps hoperandA.invert hoperandB hb.convex
        (clear_invert.mpr hclear), hb.cover_eq, hoperandA.inside_invert heps hclear, not_not])
  obtain ⟨ji, hji, hi⟩ := exists_isSurface_insert (fun x => tb.Inside x)
    (fun x => ta.Inside x) heps ha hb hlevels
    (hoperandA.keptByIntersection heps hoperandB)
    (fun x hclear => by
      rw [mem_cover_keptByIntersection_fst heps hoperandA hoperandB ha.convex hclear, ha.cover_eq])
    (fun x hclear => by
      rw [mem_cover_keptByIntersection_snd heps hoperandA hoperandB hb.convex hclear, hb.cover_eq])
  exact ⟨ta, tb, _, _, _, hta, htb, (union_eq_some hmeets hta htb).mpr ⟨ju, hju, rfl⟩,
    (difference_eq_some hmeets hta htb).mpr ⟨jd, hjd, rfl⟩,
    (intersection_eq_some hmeets hta htb).mpr ⟨ji, hji, rfl⟩, hu, isSurface_invert hd,
    isSurface_invert hi⟩

/-- Two cubes, a corner of each in the middle of the other, are such meshes. -/
theorem isSurface_of_meets_cubes : ∃ a b : Mesh ℝ, a = block ⟨-1, -1, -1⟩ ⟨2, 2, 2⟩ ∧
    b = block ⟨0, 0, 0⟩ ⟨2, 2, 2⟩ ∧ meets a b = true ∧
      ∃ ta tb u d i, a.tree? ⟨tolerance, 12⟩ = some ta ∧ b.tree? ⟨tolerance, 12⟩ = some tb ∧
        union ⟨tolerance, 12⟩ a b = some u ∧ difference ⟨tolerance, 12⟩ a b = some d ∧
        intersection ⟨tolerance, 12⟩ a b = some i ∧
        IsSurface tolerance a.polygons b.polygons ta tb
          (fun x => ¬ tb.Inside x) (fun x => ¬ ta.Inside x) u.polygons ∧
        IsSurface tolerance a.polygons b.polygons ta tb
          (fun x => ¬ tb.Inside x) (fun x => ta.Inside x) d.polygons ∧
        IsSurface tolerance a.polygons b.polygons ta tb
          (fun x => tb.Inside x) (fun x => ta.Inside x) i.polygons := by
  have h₀ : (0 : ℝ) ≤ 2 ∧ (0 : ℝ) ≤ 2 ∧ (0 : ℝ) ≤ 2 := by norm_num
  have hface : ∀ o, ∀ q ∈ (block o ⟨2, 2, 2⟩).polygons, q.IsConvex ∧ q.Fits tolerance :=
    fun o q hq => ⟨Facing.isConvex_of_mem_cuboidFaces h₀ hq,
      fits_of_mem_cube (tolerance_lt_one.trans one_lt_two) o q hq⟩
  have hmeets : meets (block ⟨-1, -1, -1⟩ ⟨2, 2, 2⟩) (block ⟨0, 0, 0⟩ ⟨2, 2, 2⟩) = true := by
    rw [meets_block h₀ h₀]
    norm_num [BoundingBox.intersects]
  exact ⟨_, _, rfl, rfl, hmeets, isSurface_of_meets epsilon_le_tolerance hmeets
    (fun q hq => (List.mem_append.mp hq).elim (hface _ q) (hface _ q)) le_rfl⟩

end Mesh

end Solids
