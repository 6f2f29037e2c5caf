import Solids.Proofs.Angles
import Solids.Proofs.RoundShape
import Solids.Proofs.Slab
/-!
# Solids.Proofs.Cylinder

**The faces of a cylinder.** Its sectors, at the bottom and at the top, are all equally
large, and so are its sides. If only the sectors are too small for planes of their own,
the cylinder is thinner than the default tolerance, and all faces are on the plane of any
side; if only the sides are, it is flatter than that, and all faces are on the plane of
any sector.

Main definitions:

* `Column` — the measures of a cylinder;
* `Column.faces` — its faces.

Main statement: `Column.exists_levels_faces` — which cylinders have a tree.
-/

namespace Solids

open Vec3 Solids.Polygon

/-- The measures that a cylinder can be made with. -/
structure Column where
  /-- The center; its height does not matter. -/
  center : Vec3 ℝ
  /-- The radius. -/
  radius : ℝ
  /-- The height of the bottom. -/
  low : ℝ
  /-- The height of the top. -/
  high : ℝ
  /-- The number of slices. -/
  slices : ℕ
  radius_pos : 0 < radius
  low_lt : low < high
  four_le : 4 ≤ slices
  le_limit : slices * 3 ≤ Mesh.polygonLimit

namespace Column

variable (c : Column) {eps : ℝ} {i : ℕ} {q : Polygon ℝ} {x : Vec3 ℝ}

/-- The point of the rim where slice `i` begins, at the height `z`. -/
noncomputable def rim (i : ℕ) (z : ℝ) : Vec3 ℝ :=
  ⟨c.center.x + c.radius * Real.cos (Mesh.sliceAngle c.slices i),
    c.center.y + c.radius * Real.sin (Mesh.sliceAngle c.slices i), z⟩

/-- The bottom face of slice `i`. -/
noncomputable def bottom (i : ℕ) : Polygon ℝ :=
  .ofVertices [⟨⟨c.center.x, c.center.y, c.low⟩, -unitZ⟩, ⟨c.rim (i + 1) c.low, -unitZ⟩,
    ⟨c.rim i c.low, -unitZ⟩]

/-- The side face of slice `i`. -/
noncomputable def side (i : ℕ) : Polygon ℝ :=
  let direction (i : ℕ) : Vec3 ℝ :=
    ⟨Real.cos (Mesh.sliceAngle c.slices i), Real.sin (Mesh.sliceAngle c.slices i), 0⟩
  .ofVertices [⟨c.rim i c.low, direction i⟩, ⟨c.rim (i + 1) c.low, direction (i + 1)⟩,
    ⟨c.rim (i + 1) c.high, direction (i + 1)⟩, ⟨c.rim i c.high, direction i⟩]

/-- The top face of slice `i`. -/
noncomputable def top (i : ℕ) : Polygon ℝ :=
  .ofVertices [⟨⟨c.center.x, c.center.y, c.high⟩, unitZ⟩, ⟨c.rim i c.high, unitZ⟩,
    ⟨c.rim (i + 1) c.high, unitZ⟩]

/-- All faces. -/
noncomputable def faces : List (Polygon ℝ) :=
  (List.range c.slices).flatMap fun i => [c.bottom i, c.side i, c.top i]

theorem cylinderFaces_eq (i : ℕ) :
    Mesh.cylinderFaces c.center c.radius c.low c.high c.slices i
      = [c.bottom i, c.side i, c.top i] := rfl

theorem mem_faces : q ∈ c.faces ↔ ∃ i < c.slices, q = c.bottom i ∨ q = c.side i ∨ q = c.top i := by
  simp [faces]

theorem isFace_of_mem (h : q ∈ c.faces) : q.IsFace := by
  obtain ⟨i, -, h⟩ := c.mem_faces.mp h
  have hmem : q ∈ Mesh.cylinderFaces c.center c.radius c.low c.high c.slices i := by
    rw [cylinderFaces_eq]
    simpa using h
  exact Mesh.isFace_of_mem_cylinderFaces hmem

/-! ### How large the faces are -/

/-- Half the angle between the ends of a slice. -/
noncomputable def halfAngle : ℝ := Real.pi / c.slices

theorem sliceAngle_succ (i : ℕ) : (Mesh.sliceAngle c.slices (i + 1) : ℝ)
    = Mesh.sliceAngle c.slices i + 2 * c.halfAngle := by
  rw [sliceAngle_succ_eq_midAngle_add, midAngle, halfAngle]
  ring

theorem slices_pos : (0 : ℝ) < c.slices := by
  have := c.four_le
  exact_mod_cast (show 0 < c.slices by omega)

/-- The sines of a slice are no less than if they grew evenly up to a right angle. -/
theorem le_sin {k : ℝ} (hk : 0 ≤ k) (hle : k ≤ 2) :
    2 * k / c.slices ≤ Real.sin (k * c.halfAngle) := by
  have hpos := c.slices_pos
  have hpi := Real.pi_pos
  have hfour : (4 : ℝ) ≤ c.slices := by exact_mod_cast c.four_le
  have hquarter : c.halfAngle ≤ Real.pi / 4 := by
    unfold halfAngle
    gcongr
  have hnonneg : 0 ≤ c.halfAngle := by
    unfold halfAngle
    positivity
  calc 2 * k / c.slices = 2 / Real.pi * (k * c.halfAngle) := by
        unfold halfAngle
        field_simp
    _ ≤ Real.sin (k * c.halfAngle) := Real.mul_le_sin (by positivity) (by nlinarith)

theorem sin_pos : 0 < Real.sin c.halfAngle := by
  have hfour := c.four_le
  exact sin_pi_div_pos (by omega)

theorem sin_two_pos : 0 < Real.sin (2 * c.halfAngle) := by
  have hpos := c.slices_pos
  exact lt_of_lt_of_le (by positivity) (c.le_sin zero_le_two le_rfl)

/-- Twice the area of a sector. -/
noncomputable def doubledSector : ℝ :=
  c.radius * c.radius * Real.sin (Mesh.sliceAngle c.slices 1)

/-- Twice the area of a side. -/
noncomputable def doubledSide : ℝ :=
  4 * c.radius * (c.high - c.low) * Real.sin c.halfAngle

theorem doubledSector_eq : c.doubledSector = c.radius * c.radius * Real.sin (2 * c.halfAngle) := by
  have hfirst : (Mesh.sliceAngle c.slices 0 : ℝ) = 0 := by
    simp [Mesh.sliceAngle, Scalar.ofNat_real]
  rw [doubledSector, c.sliceAngle_succ 0, hfirst, zero_add]

theorem doubledSector_pos : 0 < c.doubledSector := by
  rw [doubledSector_eq]
  exact mul_pos (mul_pos c.radius_pos c.radius_pos) c.sin_two_pos

theorem doubledSide_pos : 0 < c.doubledSide :=
  mul_pos (mul_pos (mul_pos four_pos c.radius_pos) (sub_pos.mpr c.low_lt)) c.sin_pos

theorem sin_two_halfAngle (i : ℕ) : Real.sin (2 * c.halfAngle)
    = Real.sin (Mesh.sliceAngle c.slices (i + 1)) * Real.cos (Mesh.sliceAngle c.slices i)
      - Real.cos (Mesh.sliceAngle c.slices (i + 1)) * Real.sin (Mesh.sliceAngle c.slices i) := by
  rw [← Real.sin_sub, sliceAngle_succ, add_sub_cancel_left]

theorem outlineNormal_bottom (i : ℕ) :
    Plane.outlineNormal (c.bottom i).vertices = c.doubledSector • -unitZ := by
  simp only [bottom, Polygon.ofVertices, Plane.outlineNormal_three, rim, doubledSector_eq,
    c.sin_two_halfAngle i]
  ext <;> simp [cross, unitZ]
  ring

theorem outlineNormal_top (i : ℕ) :
    Plane.outlineNormal (c.top i).vertices = c.doubledSector • unitZ := by
  simp only [top, Polygon.ofVertices, Plane.outlineNormal_three, rim, doubledSector_eq,
    c.sin_two_halfAngle i]
  ext <;> simp [cross, unitZ]
  ring

/-- The direction that the side face of slice `i` faces. -/
noncomputable def outward (i : ℕ) : Vec3 ℝ :=
  ⟨Real.cos (Mesh.sliceAngle c.slices i + c.halfAngle),
    Real.sin (Mesh.sliceAngle c.slices i + c.halfAngle), 0⟩

theorem outward_dot_self (i : ℕ) : (c.outward i).dot (c.outward i) = 1 := by
  simp only [outward, dot]
  linarith [Real.sin_sq_add_cos_sq (Mesh.sliceAngle c.slices i + c.halfAngle)]

theorem outlineNormal_side (i : ℕ) :
    Plane.outlineNormal (c.side i).vertices = c.doubledSide • c.outward i := by
  set a : ℝ := Mesh.sliceAngle c.slices i with ha
  have hmiddle : (a + 2 * c.halfAngle + a) / 2 = a + c.halfAngle := by ring
  have hhalf : (a + 2 * c.halfAngle - a) / 2 = c.halfAngle := by ring
  have hsin : Real.sin (Mesh.sliceAngle c.slices (i + 1)) - Real.sin a
      = 2 * Real.sin c.halfAngle * Real.cos (a + c.halfAngle) := by
    rw [Real.sin_sub_sin, sliceAngle_succ, hmiddle, hhalf]
  have hcos : Real.cos (Mesh.sliceAngle c.slices (i + 1)) - Real.cos a
      = -2 * Real.sin (a + c.halfAngle) * Real.sin c.halfAngle := by
    rw [Real.cos_sub_cos, sliceAngle_succ, hmiddle, hhalf]
  simp only [side, Polygon.ofVertices, Plane.outlineNormal_four, rim, doubledSide, outward, ← ha]
  ext <;> simp [cross]
  · linear_combination 2 * c.radius * (c.high - c.low) * hsin
  · linear_combination -2 * c.radius * (c.high - c.low) * hcos
  · ring

theorem isLarge_bottom : (c.bottom i).IsLarge ↔ Scalar.epsilon < c.doubledSector := by
  rw [IsLarge, outlineNormal_bottom,
    norm_smul_of_unit c.doubledSector_pos.le (by simp [dot, unitZ])]

theorem isLarge_top : (c.top i).IsLarge ↔ Scalar.epsilon < c.doubledSector := by
  rw [IsLarge, outlineNormal_top,
    norm_smul_of_unit c.doubledSector_pos.le (by simp [dot, unitZ])]

theorem isLarge_side : (c.side i).IsLarge ↔ Scalar.epsilon < c.doubledSide := by
  rw [IsLarge, outlineNormal_side, norm_smul_of_unit c.doubledSide_pos.le (c.outward_dot_self i)]

theorem slices_le : (c.slices : ℝ) ≤ 349525 := by
  have h := c.le_limit
  have hlimit : Mesh.polygonLimit = 1048576 := by decide
  exact_mod_cast (show c.slices ≤ 349525 by omega)

/-- A cylinder with sectors that are too small is thin. -/
theorem thin_of_doubledSector_le (h : c.doubledSector ≤ Scalar.epsilon) :
    2 * c.radius ≤ Mesh.tolerance := by
  have hpos := c.slices_pos
  have hradius := c.radius_pos
  have heps : (0 : ℝ) ≤ Scalar.epsilon := Scalar.epsilon_pos.le
  have hsquare : 2 * c.radius * (2 * c.radius) ≤ Scalar.epsilon * 349525 :=
    calc 2 * c.radius * (2 * c.radius)
        = c.radius * c.radius * (2 * 2 / c.slices) * c.slices := by field_simp
      _ ≤ c.doubledSector * c.slices := by
        rw [doubledSector_eq]
        gcongr
        exact c.le_sin zero_le_two le_rfl
      _ ≤ Scalar.epsilon * 349525 := by
        gcongr
        exact c.slices_le
  rw [Scalar.epsilon_real] at hsquare
  rw [Mesh.tolerance_eq]
  nlinarith

/-- A cylinder with sides that are too small, but not its sectors, is flat. -/
theorem flat_of_doubledSide_le (hsector : Scalar.epsilon < c.doubledSector)
    (hside : c.doubledSide ≤ Scalar.epsilon) : c.high - c.low ≤ Mesh.tolerance := by
  have hpos := c.slices_pos
  have hradius := c.radius_pos
  have hsin := c.sin_pos
  have hheight : 0 < c.high - c.low := sub_pos.mpr c.low_lt
  have hdouble : Real.sin (2 * c.halfAngle) ≤ 2 * Real.sin c.halfAngle := by
    rw [Real.sin_two_mul]
    nlinarith [Real.cos_le_one c.halfAngle]
  -- the radius is longer than the height
  have hwide : 2 * (c.high - c.low) ≤ c.radius := by
    have hlt : 2 * c.radius * Real.sin c.halfAngle * (2 * (c.high - c.low))
        < 2 * c.radius * Real.sin c.halfAngle * c.radius :=
      calc 2 * c.radius * Real.sin c.halfAngle * (2 * (c.high - c.low))
          = c.doubledSide := by unfold doubledSide; ring
        _ < c.doubledSector := hside.trans_lt hsector
        _ ≤ c.radius * c.radius * (2 * Real.sin c.halfAngle) := by rw [doubledSector_eq]; gcongr
        _ = 2 * c.radius * Real.sin c.halfAngle * c.radius := by ring
    exact (lt_of_mul_lt_mul_left hlt (by positivity)).le
  have hleast : 2 / 349525 ≤ Real.sin c.halfAngle :=
    calc (2 : ℝ) / 349525 ≤ 2 * 1 / c.slices := by
          rw [mul_one]
          gcongr
          exact c.slices_le
      _ ≤ Real.sin (1 * c.halfAngle) := c.le_sin zero_le_one one_le_two
      _ = Real.sin c.halfAngle := by rw [one_mul]
  have hsquare : 8 * ((c.high - c.low) * (c.high - c.low)) * (2 / 349525) ≤ Scalar.epsilon :=
    calc 8 * ((c.high - c.low) * (c.high - c.low)) * (2 / 349525)
        ≤ 8 * ((c.high - c.low) * (c.high - c.low)) * Real.sin c.halfAngle := by gcongr
      _ = 4 * (2 * (c.high - c.low)) * (c.high - c.low) * Real.sin c.halfAngle := by ring
      _ ≤ c.doubledSide := by unfold doubledSide; gcongr
      _ ≤ Scalar.epsilon := hside
  rw [Scalar.epsilon_real] at hsquare
  rw [Mesh.tolerance_eq]
  nlinarith

/-! ### Where the faces are -/

theorem bottom_corners (i : ℕ) : (c.bottom i).corners
    = [⟨c.center.x, c.center.y, c.low⟩, c.rim (i + 1) c.low, c.rim i c.low] := rfl

theorem side_corners (i : ℕ) : (c.side i).corners
    = [c.rim i c.low, c.rim (i + 1) c.low, c.rim (i + 1) c.high, c.rim i c.high] := rfl

theorem top_corners (i : ℕ) : (c.top i).corners
    = [⟨c.center.x, c.center.y, c.high⟩, c.rim i c.high, c.rim (i + 1) c.high] := rfl

/-- How far a point is from the axis, squared. -/
noncomputable def axisSquare (x : Vec3 ℝ) : ℝ :=
  (x.x - c.center.x) * (x.x - c.center.x) + (x.y - c.center.y) * (x.y - c.center.y)

theorem axisSquare_rim (i : ℕ) (z : ℝ) : c.axisSquare (c.rim i z) = c.radius * c.radius := by
  have hunit := Real.sin_sq_add_cos_sq (Mesh.sliceAngle c.slices i)
  simp only [axisSquare, rim, add_sub_cancel_left]
  linear_combination c.radius * c.radius * hunit

/-- All corners are between the bottom and the top, and no further from the axis than the
radius. -/
theorem within_of_mem_corners (hq : q ∈ c.faces) (hx : x ∈ q.corners) :
    (c.low ≤ x.z ∧ x.z ≤ c.high) ∧ c.axisSquare x ≤ c.radius * c.radius := by
  have hlt := c.low_lt
  have haxis : ∀ z, c.axisSquare ⟨c.center.x, c.center.y, z⟩ ≤ c.radius * c.radius := by
    intro z
    simp only [axisSquare, sub_self, mul_zero, add_zero]
    exact mul_self_nonneg c.radius
  have hrim := fun i z => (c.axisSquare_rim i z).le
  obtain ⟨i, -, rfl | rfl | rfl⟩ := c.mem_faces.mp hq
  · simp only [bottom_corners, List.mem_cons, List.not_mem_nil, or_false] at hx
    rcases hx with rfl | rfl | rfl
    · exact ⟨⟨le_rfl, hlt.le⟩, haxis _⟩
    · exact ⟨⟨le_rfl, hlt.le⟩, hrim _ _⟩
    · exact ⟨⟨le_rfl, hlt.le⟩, hrim _ _⟩
  · simp only [side_corners, List.mem_cons, List.not_mem_nil, or_false] at hx
    rcases hx with rfl | rfl | rfl | rfl
    · exact ⟨⟨le_rfl, hlt.le⟩, hrim _ _⟩
    · exact ⟨⟨le_rfl, hlt.le⟩, hrim _ _⟩
    · exact ⟨⟨hlt.le, le_rfl⟩, hrim _ _⟩
    · exact ⟨⟨hlt.le, le_rfl⟩, hrim _ _⟩
  · simp only [top_corners, List.mem_cons, List.not_mem_nil, or_false] at hx
    rcases hx with rfl | rfl | rfl
    · exact ⟨⟨hlt.le, le_rfl⟩, haxis _⟩
    · exact ⟨⟨hlt.le, le_rfl⟩, hrim _ _⟩
    · exact ⟨⟨hlt.le, le_rfl⟩, hrim _ _⟩

/-- If the cylinder is flat, all faces are on the plane of a large sector. -/
theorem on_of_flat (hflat : c.high - c.low ≤ eps) (hq : q ∈ c.faces) (hlarge : q.IsLarge)
    {k : ℝ} (hnormal : Plane.outlineNormal q.vertices = k • unitZ) :
    ∀ r ∈ c.faces, q.plane.sideOfPolygon eps r = .on := by
  have hface := c.isFace_of_mem hq
  have hlt := c.low_lt
  obtain ⟨v, hv⟩ := hface.exists_mem
  obtain ⟨⟨hlow, hhigh⟩, -⟩ := c.within_of_mem_corners hq (pos_mem_corners hv)
  intro r hr
  rw [Plane.sideOfPolygon_eq_on]
  intro x hx
  obtain ⟨⟨hlow', hhigh'⟩, -⟩ := c.within_of_mem_corners hr hx
  have hdistance : |q.plane.signedDistance x| ≤ c.high - c.low := by
    refine hface.abs_signedDistance_le hlarge hv (u := ⟨0, 0, x.z - v.pos.z⟩) (by linarith) ?_ ?_
    · simp [hnormal, dot, unitZ]
    · simp only [dot, mul_zero, zero_add]
      exact mul_self_le_mul_self_of_le_of_neg_le (by linarith) (by linarith)
  exact Plane.sideOf_eq_on.mpr (hdistance.trans hflat)

/-- If the cylinder is thin, all faces are on the plane of a large side. -/
theorem on_of_thin (hthin : 2 * c.radius ≤ eps) (hlarge : (c.side i).IsLarge)
    (hi : i < c.slices) : ∀ r ∈ c.faces, (c.side i).plane.sideOfPolygon eps r = .on := by
  have hq : c.side i ∈ c.faces := c.mem_faces.mpr ⟨i, hi, .inr (.inl rfl)⟩
  have hface := c.isFace_of_mem hq
  obtain ⟨v, hv⟩ := hface.exists_mem
  have hnear := (c.within_of_mem_corners hq (pos_mem_corners hv)).2
  intro r hr
  rw [Plane.sideOfPolygon_eq_on]
  intro x hx
  have hnear' := (c.within_of_mem_corners hr hx).2
  have hdistance : |(c.side i).plane.signedDistance x| ≤ 2 * c.radius := by
    refine hface.abs_signedDistance_le hlarge hv (u := ⟨x.x - v.pos.x, x.y - v.pos.y, 0⟩)
      (by linarith [c.radius_pos]) ?_ ?_
    · simp [outlineNormal_side, outward, dot]
    · simp only [axisSquare] at hnear hnear'
      simp only [dot, mul_zero, add_zero]
      nlinarith [mul_self_nonneg (x.x - c.center.x + (v.pos.x - c.center.x)),
        mul_self_nonneg (x.y - c.center.y + (v.pos.y - c.center.y))]
  exact Plane.sideOf_eq_on.mpr (hdistance.trans hthin)

/-- The side faces reach from the lowest corner to the highest. -/
theorem isUpright_faces : Tree.IsUpright c.faces := by
  have hpos : 0 < c.slices := by have := c.four_le; omega
  exact ⟨c.side 0, c.mem_faces.mpr ⟨0, hpos, .inr (.inl rfl)⟩, c.rim 0 c.low,
    by simp [side_corners], c.rim 0 c.high, by simp [side_corners],
    fun r hr z hz => (c.within_of_mem_corners hr hz).1⟩

/-! ### The tree of a cylinder -/

theorem exists_faces_eq_cons :
    ∃ rest, c.faces = c.bottom 0 :: c.side 0 :: c.top 0 :: rest := by
  obtain ⟨n, hn⟩ : ∃ n, c.slices = n + 1 := ⟨c.slices - 1, by have := c.four_le; omega⟩
  rw [faces, hn, List.range_succ_eq_map, List.flatMap_cons]
  exact ⟨_, rfl⟩

/-- A face among the first that has all others on its plane decides that the tree is a single
node, if every large face has. -/
theorem insert_isSome_of_on (heps : 0 ≤ eps) (hq : q = c.bottom 0 ∨ q = c.side 0)
    (hlarge : q.IsLarge)
    (hon : ∀ q ∈ c.faces, q.IsLarge → ∀ r ∈ c.faces, q.plane.sideOfPolygon eps r = .on) :
    (Tree.absent.insert eps 1 c.faces).isSome := by
  have hplanes : ∀ q ∈ c.faces, q.plane = Plane.ground ∨
      ∀ r ∈ c.faces, q.plane.sideOfPolygon eps r ≠ .front := by
    intro q hq
    by_cases hlarge : q.IsLarge
    · exact .inr fun r hr => by simp [hon q hq hlarge r hr]
    · exact .inl ((c.isFace_of_mem hq).plane_eq_ground hlarge)
  have hmem : q ∈ c.faces := by
    obtain ⟨rest, hfaces⟩ := c.exists_faces_eq_cons
    rw [hfaces]
    rcases hq with rfl | rfl <;> simp
  have hall := hon q hmem hlarge
  have hupright := c.isUpright_faces
  obtain ⟨rest, hfaces⟩ := c.exists_faces_eq_cons
  rw [hfaces] at hall hupright hplanes ⊢
  have hcandidate : q ∈ c.bottom 0 ::
      (c.side 0 :: c.top 0 :: rest).take (Tree.candidateLimit - 1) := by
    rcases hq with rfl | rfl <;> simp [Tree.candidateLimit]
  obtain ⟨_, -, -, hinsert⟩ := hupright.insert_of_on heps hplanes hcandidate hall
  exact Option.isSome_iff_exists.mpr ⟨_, hinsert 0⟩

/-- A cylinder has a tree if it has a large face, or is within the tolerance of the
ground. -/
theorem exists_levels_faces :
    (∃ levels, (Tree.absent.insert Mesh.tolerance levels c.faces).isSome) ↔
      (∃ q ∈ c.faces, q.IsLarge) ∨
        ∀ q ∈ c.faces, Plane.ground.sideOfPolygon Mesh.tolerance q = .on := by
  have hpos : 0 ≤ Mesh.tolerance := Mesh.tolerance_nonneg
  by_cases hsector : Scalar.epsilon < c.doubledSector
  · have hbottom : (c.bottom 0).IsLarge := c.isLarge_bottom.mpr hsector
    have hmem : c.bottom 0 ∈ c.faces :=
      c.mem_faces.mpr ⟨0, by have := c.four_le; omega, .inl rfl⟩
    refine iff_of_true ?_ (.inl ⟨_, hmem, hbottom⟩)
    by_cases hside : Scalar.epsilon < c.doubledSide
    · have hfits : ∀ q ∈ c.faces, q.Fits Mesh.tolerance := by
        intro q hq
        refine ((c.isFace_of_mem hq).isFlat ?_).fits hpos
        obtain ⟨i, -, rfl | rfl | rfl⟩ := c.mem_faces.mp hq
        · exact c.isLarge_bottom.mpr hsector
        · exact c.isLarge_side.mpr hside
        · exact c.isLarge_top.mpr hsector
      obtain ⟨t, ht, -⟩ := Tree.exists_ofPolygons Mesh.epsilon_le_tolerance
        (List.ne_nil_of_mem hmem) hfits le_rfl
      rw [Tree.ofPolygons_eq (List.ne_nil_of_mem hmem)] at ht
      exact ⟨_, Option.isSome_iff_exists.mpr ⟨t, ht⟩⟩
    · refine ⟨1, c.insert_isSome_of_on hpos (.inl rfl) hbottom fun q hq hlarge => ?_⟩
      have hflat := c.flat_of_doubledSide_le hsector (not_lt.mp hside)
      obtain ⟨i, -, rfl | rfl | rfl⟩ := c.mem_faces.mp hq
      · refine c.on_of_flat hflat hq hlarge (k := -c.doubledSector) ?_
        rw [outlineNormal_bottom, smul_neg, neg_smul]
      · exact absurd (c.isLarge_side.mp hlarge) hside
      · exact c.on_of_flat hflat hq hlarge (c.outlineNormal_top i)
  · have hthin := c.thin_of_doubledSector_le (not_lt.mp hsector)
    by_cases hside : Scalar.epsilon < c.doubledSide
    · have hlarge : (c.side 0).IsLarge := c.isLarge_side.mpr hside
      have hmem : c.side 0 ∈ c.faces :=
        c.mem_faces.mpr ⟨0, by have := c.four_le; omega, .inr (.inl rfl)⟩
      refine iff_of_true ⟨1, c.insert_isSome_of_on hpos (.inr rfl) hlarge fun q hq hlarge => ?_⟩
        (.inl ⟨_, hmem, hlarge⟩)
      obtain ⟨i, hi, rfl | rfl | rfl⟩ := c.mem_faces.mp hq
      · exact absurd (c.isLarge_bottom.mp hlarge) hsector
      · exact c.on_of_thin hthin hlarge hi
      · exact absurd (c.isLarge_top.mp hlarge) hsector
    · have hnone : ∀ q ∈ c.faces, ¬ q.IsLarge := by
        intro q hq
        obtain ⟨i, -, rfl | rfl | rfl⟩ := c.mem_faces.mp hq
        · rwa [isLarge_bottom]
        · rwa [isLarge_side]
        · rwa [isLarge_top]
      have hground : ∀ q ∈ c.faces, q.plane = Plane.ground := fun q hq =>
        (c.isFace_of_mem hq).plane_eq_ground (hnone q hq)
      rw [Tree.exists_levels_iff_of_plane_eq Mesh.epsilon_le_tolerance hground, or_iff_right]
      rintro ⟨q, hq, hlarge⟩
      exact hnone q hq hlarge

end Column

/-! ### The cylinders that can be made -/

namespace Mesh

variable {m : Mesh ℝ} {height radius : ℝ} {center : Option (Vec3 ℝ)} {segments : Option UInt32}

/-- Every cylinder that is not refused has such measures. -/
theorem exists_column (h : cylinder height radius center segments = .ok m) :
    ∃ c : Column, m.polygons = c.faces ∧
      c.center = (Shape.cylinder height radius center segments).center ∧
      c.low < c.center.z ∧ c.center.z < c.high := by
  obtain ⟨⟨hheight, hradius, -, hslices, hcount⟩, rfl⟩ := (cylinder_ok_iff rfl).mp h
  have hheight := requirePositive_real.mp hheight
  set o := (Shape.cylinder height radius center segments).center
  have hlow : o.z - height * Scalar.half < o.z := by
    rw [Scalar.half_real]
    linarith
  have hhigh : o.z < o.z + height * Scalar.half := by
    rw [Scalar.half_real]
    linarith
  exact ⟨⟨o, radius, _, _, _, requirePositive_real.mp hradius, hlow.trans hhigh, hslices, hcount⟩,
    rfl, rfl, hlow, hhigh⟩

end Mesh

end Solids
