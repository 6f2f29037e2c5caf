import Solids.Proofs.Multiplicity
import Solids.Proofs.Slab
/-!
# Solids.Proofs.CleanSolid

**Convex solids in exact position.** Each corner of the solid is on the plane of a face or
well behind it, and nothing is in between.

Main definitions:

* `Plane.Coincides` — two planes hold the same points;
* `IsCleanSolid` — the faces of such a solid;
* `IsFaceAt` — the only face at a point.

Main statements:

* `Plane.Coincides.exists_smul` — planes that hold the same points are multiples of each
  other;
* `IsCleanSolid.isShell` — the tree of such a solid is a chain;
* `IsFaceAt.ahead_iff` — where a polygon on the plane of the face goes;
* `Facing.isCleanSolid_of_thick`, `Facing.isFaceAt_center` — boxes are such solids, and the
  middle of a face is on that face alone.
-/

namespace Solids

/-! ### Planes that hold the same points -/

namespace Plane

/-- The planes hold the same points. They need not look the same way. -/
def Coincides (p p' : Plane ℝ) : Prop := ∀ y, p.signedDistance y = 0 ↔ p'.signedDistance y = 0

variable {p p' p'' : Plane ℝ}

namespace Coincides

theorem refl (p : Plane ℝ) : p.Coincides p := fun _ => Iff.rfl

theorem symm (h : p.Coincides p') : p'.Coincides p := fun y => (h y).symm

theorem trans (h : p.Coincides p') (h' : p'.Coincides p'') : p.Coincides p'' :=
  fun y => (h y).trans (h' y)

theorem flip_left (h : p.Coincides p') : p.flip.Coincides p' := fun y => by
  rw [flip_signedDistance, neg_eq_zero]
  exact h y

/-- Planes that hold the same points are multiples of each other. -/
theorem exists_smul (h : p.Coincides p') (hp : p.normal ≠ 0) (hp' : p'.normal ≠ 0) :
    ∃ c ≠ 0, p'.normal = c • p.normal ∧ ∀ y, p'.signedDistance y = c * p.signedDistance y := by
  have hpos : 0 < p.normal.dot p.normal := Vec3.dot_self_pos hp
  -- the point of the first plane that is next to the origin
  obtain ⟨y₀, hy₀⟩ : ∃ y₀, p.normal.dot y₀ = p.w :=
    ⟨(p.w / p.normal.dot p.normal) • p.normal, by rw [Vec3.dot_smul, div_mul_cancel₀ _ hpos.ne']⟩
  have hy₀' : p'.normal.dot y₀ = p'.w :=
    sub_eq_zero.mp ((h y₀).mp (sub_eq_zero.mpr hy₀))
  -- what runs along the first plane runs along the second one
  have halong : ∀ v, p.normal.dot v = 0 → p'.normal.dot v = 0 := by
    intro v hv
    have hsum : p'.signedDistance (y₀ + v) = 0 :=
      (h _).mp (by rw [signedDistance, Vec3.dot_add, hv, hy₀]; ring)
    rw [signedDistance, Vec3.dot_add, hy₀'] at hsum
    linarith
  set c := p.normal.dot p'.normal / p.normal.dot p.normal with hc
  have hrest : p'.normal - c • p.normal = 0 := by
    have hzero : p.normal.dot (p'.normal - c • p.normal) = 0 := by
      rw [Vec3.dot_sub, Vec3.dot_smul, hc, div_mul_cancel₀ _ hpos.ne', sub_self]
    have hself := halong _ hzero
    rw [← Vec3.dot_self_eq_zero, Vec3.dot_comm, Vec3.dot_sub, Vec3.dot_smul, Vec3.dot_comm,
      hself, Vec3.dot_comm, hzero]
    ring
  have hnormal : p'.normal = c • p.normal := sub_eq_zero.mp hrest
  have hdot : ∀ v, p'.normal.dot v = c * p.normal.dot v := fun v => by
    rw [hnormal, Vec3.dot_comm, Vec3.dot_smul, Vec3.dot_comm]
  refine ⟨c, fun hzero => hp' ?_, hnormal, fun y => ?_⟩
  · rw [hnormal, hzero, zero_smul]
  · rw [signedDistance, signedDistance, ← hy₀', ← hy₀, hdot, hdot]
    ring

end Coincides

end Plane

/-! ### Clean convex solids -/

/-- The faces of a convex solid whose corners are on the planes of the faces or further
behind them than the tolerance. -/
structure IsCleanSolid (eps : ℝ) (l : List (Polygon ℝ)) : Prop where
  /-- The faces are convex. -/
  convex : ∀ q ∈ l, q.IsConvex
  /-- Each has three corners that are not on a line. -/
  wide : ∀ q ∈ l, ¬ Collinear ℝ {y | y ∈ q.corners}
  /-- A face is on its own plane. -/
  own : ∀ q ∈ l, ∀ y ∈ q.corners, q.plane.signedDistance y = 0
  /-- Every corner is on the plane of a face or well behind it. -/
  behind : ∀ q ∈ l, ∀ r ∈ l, ∀ y ∈ r.corners,
    q.plane.signedDistance y = 0 ∨ q.plane.signedDistance y < -eps
  /-- Some corner is behind it. -/
  deep : ∀ q ∈ l, ∃ r ∈ l, ∃ y ∈ r.corners, q.plane.signedDistance y < 0

namespace IsCleanSolid

variable {eps : ℝ} {l : List (Polygon ℝ)} {q r : Polygon ℝ} {x : Vec3 ℝ}

theorem fits (heps : 0 ≤ eps) (h : IsCleanSolid eps l) : ∀ q ∈ l, q.Fits eps := by
  intro q hq y hy
  rwa [h.own q hq y hy, abs_zero]

theorem exists_mem_corners (h : IsCleanSolid eps l) (hq : q ∈ l) : ∃ y, y ∈ q.corners := by
  refine List.exists_mem_of_ne_nil _ fun hnil => h.wide q hq ?_
  simpa [hnil] using collinear_empty ℝ (Vec3 ℝ)

theorem normal_ne_zero (h : IsCleanSolid eps l) (hq : q ∈ l) : q.plane.normal ≠ 0 := by
  intro hzero
  -- without a normal all points are as far from the plane
  have hsame : ∀ y z, q.plane.signedDistance y = q.plane.signedDistance z := fun y z => by
    simp [Plane.signedDistance, hzero, Vec3.dot]
  obtain ⟨y, hy⟩ := h.exists_mem_corners hq
  obtain ⟨r, -, z, -, hz⟩ := h.deep q hq
  rw [hsame z y, h.own q hq y hy] at hz
  exact lt_irrefl _ hz

/-- No point of the solid's faces is in front of the plane of a face. -/
theorem signedDistance_le_zero (heps : 0 ≤ eps) (h : IsCleanSolid eps l) (hq : q ∈ l)
    (hx : x ∈ cover l) : q.plane.signedDistance x ≤ 0 := by
  obtain ⟨r, hr, hxr⟩ := hx
  refine Polygon.region_subset (q.plane.convex_le 0) (fun y hy => ?_) hxr
  rcases h.behind q hq r hr y hy with hzero | hlt
  · exact hzero.le
  · exact (hlt.trans_le (by linarith)).le

/-- Faces in one plane look the same way, and points have the same side of both. -/
theorem exists_pos_smul (heps : 0 ≤ eps) (h : IsCleanSolid eps l) (hq : q ∈ l) (hr : r ∈ l)
    (hsame : q.plane.Coincides r.plane) : ∃ c : ℝ, 0 < c ∧ q.plane.normal = c • r.plane.normal ∧
      ∀ y, q.plane.signedDistance y = c * r.plane.signedDistance y := by
  obtain ⟨c, hc, hnormal, hdistance⟩ :=
    hsame.symm.exists_smul (h.normal_ne_zero hr) (h.normal_ne_zero hq)
  obtain ⟨s, hs, y, hy, hlt⟩ := h.deep r hr
  have hle : q.plane.signedDistance y ≤ 0 :=
    h.signedDistance_le_zero heps hq ⟨s, hs, Polygon.mem_region_of_mem hy⟩
  rw [hdistance] at hle
  exact ⟨c, lt_of_le_of_ne (nonneg_of_mul_nonpos_left hle hlt) hc.symm, hnormal, hdistance⟩

/-- The faces of such a solid make a shell. -/
theorem isShell (heps : 0 ≤ eps) (h : IsCleanSolid eps l) : Tree.IsShell eps l where
  own q hq := by
    refine Plane.sideOfPolygon_eq_on.mpr fun y hy => Plane.sideOf_eq_on.mpr ?_
    rwa [h.own q hq y hy, abs_zero]
  others q hq r hr := by
    refine Plane.sideOfPolygon_mem_back.mpr fun y hy hfront => ?_
    have hlt := (Plane.sideOf_eq_front heps).mp hfront
    have hle := h.signedDistance_le_zero heps hq ⟨r, hr, Polygon.mem_region_of_mem hy⟩
    linarith

end IsCleanSolid

/-! ### The face at a point -/

/-- The polygon is the only one of the list at the point, and the point is far from all
planes but its own. -/
structure IsFaceAt (eps : ℝ) (x : Vec3 ℝ) (l : List (Polygon ℝ)) (g : Polygon ℝ) : Prop where
  /-- It is one of the list. -/
  mem : g ∈ l
  /-- The point is on it. -/
  mem_region : x ∈ g.region
  /-- It is the only one that has the point. -/
  single : countAt x l = 1
  /-- The point is far from planes that hold other points. -/
  far : ∀ q ∈ l, ¬ q.plane.Coincides g.plane → eps < |q.plane.signedDistance x|

/-- The polygon has the point and lies in the plane, looking one way or the other. -/
structure Polygon.FlushAt (x : Vec3 ℝ) (p : Plane ℝ) (f : Polygon ℝ) : Prop where
  /-- The polygon is convex. -/
  convex : f.IsConvex
  /-- The point is on it. -/
  mem_region : x ∈ f.region
  /-- It is on its own plane. -/
  own : ∀ y ∈ f.corners, f.plane.signedDistance y = 0
  /-- Its plane looks somewhere. -/
  normal_ne_zero : f.plane.normal ≠ 0
  /-- Its plane holds the same points. -/
  coincides : f.plane.Coincides p

namespace Polygon.FlushAt

variable {p p' : Plane ℝ} {f : Polygon ℝ} {x : Vec3 ℝ}

theorem flip (h : f.FlushAt x p) : f.flip.FlushAt x p where
  convex := isConvex_flip.mpr h.convex
  mem_region := by simpa using h.mem_region
  own y hy := by
    rw [flip_plane, Plane.flip_signedDistance, neg_eq_zero]
    exact h.own y (by simpa using hy)
  normal_ne_zero := by simpa using h.normal_ne_zero
  coincides := h.coincides.flip_left

theorem congr (h : f.FlushAt x p) (hsame : p.Coincides p') : f.FlushAt x p' :=
  { h with coincides := h.coincides.trans hsame }

/-- The polygon looks one way or the other. -/
theorem dot_ne_zero (h : f.FlushAt x p) (hp : p.normal ≠ 0) :
    p.normal.dot f.plane.normal ≠ 0 := by
  obtain ⟨c, hc, hnormal, -⟩ := h.coincides.symm.exists_smul hp h.normal_ne_zero
  rw [hnormal, Vec3.dot_smul]
  exact mul_ne_zero hc (Vec3.dot_self_pos hp).ne'

end Polygon.FlushAt

namespace IsFaceAt

variable {eps : ℝ} {l : List (Polygon ℝ)} {f g q : Polygon ℝ} {x : Vec3 ℝ}

theorem flushAt (hl : IsCleanSolid eps l) (hg : IsFaceAt eps x l g) : g.FlushAt x g.plane where
  convex := hl.convex g hg.mem
  mem_region := hg.mem_region
  own := hl.own g hg.mem
  normal_ne_zero := hl.normal_ne_zero hg.mem
  coincides := .refl _

theorem on_of_coincides (heps : 0 ≤ eps) (hf : f.FlushAt x g.plane)
    (hq : q.plane.Coincides g.plane) : q.plane.sideOfPolygon eps f = .on := by
  refine Plane.sideOfPolygon_eq_on.mpr fun y hy => Plane.sideOf_eq_on.mpr ?_
  rwa [(hq.trans hf.coincides.symm y).mpr (hf.own y hy), abs_zero]

/-- A plane of the solid that holds other points has the point well behind it. -/
theorem lt_neg (heps : 0 ≤ eps) (hl : IsCleanSolid eps l) (hg : IsFaceAt eps x l g) (hq : q ∈ l)
    (hother : ¬ q.plane.Coincides g.plane) : q.plane.signedDistance x < -eps := by
  have hle := hl.signedDistance_le_zero heps hq ⟨g, hg.mem, hg.mem_region⟩
  rcases lt_abs.mp (hg.far q hq hother) with hlt | hlt <;> linarith

/-- A polygon in the plane of the face goes to the front of the planes of the solid that
hold the same points, if it looks the way that the face looks, and of no other ones. -/
theorem ahead_iff (heps : 0 ≤ eps) (hl : IsCleanSolid eps l) (hg : IsFaceAt eps x l g)
    (hf : f.FlushAt x g.plane) (hq : q ∈ l) : q.plane.Ahead eps x f ↔
      q.plane.Coincides g.plane ∧ 0 < g.plane.normal.dot f.plane.normal := by
  by_cases hsame : q.plane.Coincides g.plane
  · obtain ⟨c, hc, hnormal, -⟩ := hl.exists_pos_smul heps hq hg.mem hsame
    rw [Plane.ahead_of_on (on_of_coincides heps hf hsame) hf.mem_region, hnormal, Vec3.dot_comm,
      Vec3.dot_smul, Vec3.dot_comm, mul_pos_iff_of_pos_left hc]
    exact (and_iff_right hsame).symm
  · exact iff_of_false (Plane.not_ahead_of_lt heps hf.mem_region (hg.lt_neg heps hl hq hsame))
      fun h => hsame h.1

/-- The planes of the solid sort what lies in the plane of the face. -/
theorem sorts (heps : 0 ≤ eps) (hl : IsCleanSolid eps l) (hg : IsFaceAt eps x l g)
    (hf : f.FlushAt x g.plane) (hq : q ∈ l) : q.plane.Sorts eps x f := by
  by_cases hsame : q.plane.Coincides g.plane
  · obtain ⟨c, hc, hnormal, -⟩ := hl.exists_pos_smul heps hq hg.mem hsame
    refine .inr ⟨on_of_coincides heps hf hsame, ?_⟩
    rw [hnormal, Vec3.dot_comm, Vec3.dot_smul, Vec3.dot_comm]
    exact mul_ne_zero hc.ne' (hf.dot_ne_zero (hl.normal_ne_zero hg.mem))
  · exact .inl (hg.far q hq hsame)

end IsFaceAt

/-! ### Boxes -/

/-- Three corners that make a turn are not on a line. -/
theorem not_collinear_of_turn_ne_zero {n a b c : Vec3 ℝ} {s : Set (Vec3 ℝ)} (ha : a ∈ s)
    (hb : b ∈ s) (hc : c ∈ s) (h : Vec3.turn n a b c ≠ 0) : ¬ Collinear ℝ s := by
  intro hline
  obtain ⟨v, hv⟩ := (collinear_iff_of_mem ha).mp hline
  obtain ⟨t, rfl⟩ := hv b hb
  obtain ⟨u, rfl⟩ := hv c hc
  refine h ?_
  simp only [Vec3.turn, vadd_eq_add, add_sub_cancel_right, Vec3.dot, Vec3.cross, Vec3.smul_x,
    Vec3.smul_y, Vec3.smul_z]
  ring

namespace Facing

variable {o size x : Vec3 ℝ} {eps : ℝ} {d d' : Facing}

/-- A corner of the box is on the plane of a face or on that of the one across. -/
theorem signedDistance_eq_or (h : x ∈ d'.corners o size) :
    (d.plane o size).signedDistance x = 0 ∨
      (d.plane o size).signedDistance x = -d.depth size := by
  cases d' <;>
    simp only [corners, List.mem_cons, List.not_mem_nil, or_false] at h <;>
    rcases h with rfl | rfl | rfl | rfl <;> cases d <;>
    simp [Plane.signedDistance, plane, normal, level, depth, Vec3.dot, Vec3.unitX, Vec3.unitY,
      Vec3.unitZ]

/-- The faces of a box that is deep in every direction are those of a clean solid. -/
theorem isCleanSolid_of_thick (heps : 0 ≤ eps) (hsquare : Scalar.epsilon ≤ 2 * (eps * eps))
    (h₀ : 0 ≤ size.x ∧ 0 ≤ size.y ∧ 0 ≤ size.z) (hthick : ∀ d : Facing, eps < d.depth size) :
    IsCleanSolid eps (Mesh.cuboidFaces o size) := by
  have hplane := face_plane_of_thick heps hsquare hthick o
  have hpos : ∀ d : Facing, 0 < d.depth size := fun d => heps.trans_lt (hthick d)
  refine ⟨fun q hq => isConvex_of_mem_cuboidFaces h₀ hq, ?_, ?_, ?_, ?_⟩
  · intro q hq
    obtain ⟨d, rfl⟩ := mem_cuboidFaces.mp hq
    have hx := hpos left
    have hy := hpos front
    have hz := hpos down
    simp only [depth] at hx hy hz
    obtain ⟨a, b, c, e, hcorners, hturn⟩ : ∃ a b c e, d.corners o size = [a, b, c, e] ∧
        0 < Vec3.turn d.normal a b c := by
      cases d <;> refine ⟨_, _, _, _, rfl, ?_⟩ <;>
        simp [Vec3.turn, normal, Vec3.dot, Vec3.cross, Vec3.unitX, Vec3.unitY, Vec3.unitZ] <;>
        positivity
    refine not_collinear_of_turn_ne_zero ?_ ?_ ?_ hturn.ne' <;> simp [hcorners]
  · intro q hq y hy
    obtain ⟨d, rfl⟩ := mem_cuboidFaces.mp hq
    rw [face_corners] at hy
    rw [hplane]
    exact signedDistance_of_mem_corners hy
  · intro q hq r hr y hy
    obtain ⟨d, rfl⟩ := mem_cuboidFaces.mp hq
    obtain ⟨d', rfl⟩ := mem_cuboidFaces.mp hr
    rw [face_corners] at hy
    rw [hplane]
    refine (signedDistance_eq_or hy).imp_right fun hdepth => ?_
    rw [hdepth, neg_lt_neg_iff]
    exact hthick d
  · intro q hq
    obtain ⟨d, rfl⟩ := mem_cuboidFaces.mp hq
    obtain ⟨y, hy, hdistance⟩ : ∃ y ∈ d.opposite.corners o size, _ = -d.depth size :=
      exists_mem_corners (by cases d <;> simp [opposite])
    refine ⟨_, mem_cuboidFaces.mpr ⟨d.opposite, rfl⟩, y, by rwa [face_corners], ?_⟩
    rw [hplane, hdistance, neg_lt_zero]
    exact hpos d

theorem signedDistance_center_of_ne (hpos : ∀ d : Facing, 0 < d.depth size) (h : d' ≠ d) :
    (d'.plane o size).signedDistance (d.center o size) ≤ -(d'.depth size / 2) := by
  have hx := hpos left
  have hy := hpos front
  have hz := hpos down
  simp only [depth] at hx hy hz
  cases d <;> cases d' <;> first
    | exact absurd rfl h
    | simp [Plane.signedDistance, plane, center, normal, level, depth, Vec3.dot, Vec3.unitX,
        Vec3.unitY, Vec3.unitZ]
      linarith

/-- The middle of a face is on that face alone, and far from the planes of the others. -/
theorem isFaceAt_center (heps : 0 ≤ eps) (hsquare : Scalar.epsilon ≤ 2 * (eps * eps))
    (hthick : ∀ d : Facing, 2 * eps < d.depth size) (d : Facing) :
    IsFaceAt eps (d.center o size) (Mesh.cuboidFaces o size) (face o size d) := by
  have hdeep : ∀ d : Facing, eps < d.depth size := fun d => by linarith [hthick d]
  have hplane := face_plane_of_thick heps hsquare hdeep o
  have hfar : ∀ d', d' ≠ d → (d'.plane o size).signedDistance (d.center o size) < -eps := by
    intro d' hne
    have hle := signedDistance_center_of_ne (o := o)
      (fun d => heps.trans_lt (hdeep d)) hne
    linarith [hthick d']
  refine ⟨mem_cuboidFaces.mpr ⟨d, rfl⟩, center_mem_region o size d, ?_, ?_⟩
  · have honly : ∀ d', d.center o size ∈ (face o size d').region ↔ d' = d := by
      intro d'
      refine ⟨fun hmem => ?_, fun h => h ▸ center_mem_region o size d'⟩
      by_contra hne
      have hge := Polygon.region_subset ((d'.plane o size).convex_ge 0) (fun y hy => by
        rw [face_corners] at hy
        exact (signedDistance_of_mem_corners hy).ge) hmem
      exact (hfar d' hne).not_ge ((neg_nonpos.mpr heps).trans hge)
    rw [countAt, cuboidFaces_eq, List.countP_map]
    simp only [Function.comp_def, honly]
    cases d <;> simp
  · intro q hq hother
    obtain ⟨d', rfl⟩ := mem_cuboidFaces.mp hq
    have hne : d' ≠ d := by
      rintro rfl
      exact hother (.refl _)
    rw [hplane, lt_abs]
    exact .inr (by linarith [hfar d' hne])

end Facing

end Solids
