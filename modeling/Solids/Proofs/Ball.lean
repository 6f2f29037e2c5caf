import Solids.Proofs.Angles
import Solids.Proofs.RoundShape
/-!
# Solids.Proofs.Ball

**The faces of a ball.** Every face is across a direction in the middle of its slice and its layer,
and no corner of the ball is further in that direction than the corners of the face are.

Main definitions:

* `Ball` — the measures of a ball;
* `Ball.faces` — its faces;
* `Ball.outward` — the direction of a face.

Main statements:

* `Ball.outlineNormal_face` — the outline of a face is across its direction;
* `Ball.outward_dot_direction_le` — how far the corners are in the direction of a face.
-/

namespace Solids

open Vec3

/-- The measures that a ball can be made with. -/
structure Ball where
  /-- The center. -/
  center : Vec3 ℝ
  /-- The radius. -/
  radius : ℝ
  /-- The number of slices. -/
  slices : ℕ
  /-- The number of layers. -/
  layers : ℕ
  radius_pos : 0 < radius
  four_le : 4 ≤ slices
  two_le : 2 ≤ layers

namespace Ball

variable (b : Ball) {i j i' j' : ℕ} {q : Polygon ℝ} {x : Vec3 ℝ}

/-- The direction of the corner where slice `i` and layer `j` begin. -/
noncomputable def direction (i j : ℕ) : Vec3 ℝ :=
  ⟨Real.sin (layerAngle b.layers j) * Real.cos (Mesh.sliceAngle b.slices i),
    Real.sin (layerAngle b.layers j) * Real.sin (Mesh.sliceAngle b.slices i),
    Real.cos (layerAngle b.layers j)⟩

/-- The corner where slice `i` and layer `j` begin. -/
noncomputable def corner (i j : ℕ) : Vertex ℝ :=
  ⟨b.center + b.radius • b.direction i j, b.direction i j⟩

/-- The face in slice `i` and layer `j`. -/
noncomputable def face (i j : ℕ) : Polygon ℝ := .ofVertices (Grid.cell b.corner b.layers i j)

/-- All faces. -/
noncomputable def faces : List (Polygon ℝ) :=
  (List.range b.slices).flatMap fun i => (List.range b.layers).map fun j => b.face i j

theorem mem_faces : q ∈ b.faces ↔ ∃ i < b.slices, ∃ j < b.layers, q = b.face i j := by
  simp [faces, eq_comm]

/-- Where the corners of a face are in the grid. -/
theorem exists_of_mem_corners (h : x ∈ (b.face i j).corners) :
    ∃ i' j', (i' = i ∨ i' = i + 1) ∧ (j' = j ∨ j' = j + 1) ∧ x = (b.corner i' j').pos := by
  obtain ⟨v, hv, rfl⟩ := List.mem_map.mp h
  obtain ⟨i', j', hi, hj, rfl⟩ := Grid.exists_of_mem_cell hv
  exact ⟨i', j', hi, hj, rfl⟩

/-! ### The direction of a face -/

/-- The direction of the face in slice `i` and layer `j`. -/
noncomputable def outward (i j : ℕ) : Vec3 ℝ :=
  ⟨Real.sin (midAngle (2 * b.layers) j) * Real.cos (midAngle b.slices i),
    Real.sin (midAngle (2 * b.layers) j) * Real.sin (midAngle b.slices i),
    Real.cos (midAngle (2 * b.layers) j) * Real.cos (Real.pi / b.slices)⟩

/-- How far the corners of a face are in its direction, in a ball with the radius one. -/
noncomputable def reach : ℝ :=
  Real.cos (Real.pi / b.slices) * Real.cos (Real.pi / (2 * b.layers : ℕ))

theorem reach_pos : 0 < b.reach := by
  have hfour := b.four_le
  have htwo := b.two_le
  exact mul_pos (cos_pi_div_pos (by omega)) (cos_pi_div_pos (by omega))

theorem outward_dot_direction (i j i' j' : ℕ) : (b.outward i j).dot (b.direction i' j')
    = Real.sin (midAngle (2 * b.layers) j) * Real.sin (layerAngle b.layers j')
        * Real.cos (Mesh.sliceAngle b.slices i' - midAngle b.slices i)
      + Real.cos (midAngle (2 * b.layers) j) * Real.cos (layerAngle b.layers j')
        * Real.cos (Real.pi / b.slices) := by
  rw [Real.cos_sub]
  simp only [dot, outward, direction]
  ring

theorem outward_dot_direction_of_mem (hi : i' = i ∨ i' = i + 1) (hj : j' = j ∨ j' = j + 1) :
    (b.outward i j).dot (b.direction i' j') = b.reach := by
  have hlayer := cos_sub_midAngle (n := 2 * b.layers) hj
  rw [← layerAngle_eq_sliceAngle, Real.cos_sub] at hlayer
  rw [outward_dot_direction, cos_sub_midAngle hi, reach, ← hlayer]
  ring

/-- No corner of the ball is further in the direction of a face than the corners of the face are. -/
theorem outward_dot_direction_le (hi : i < b.slices) (hj : j < b.layers) (hi' : i' ≤ b.slices)
    (hj' : j' ≤ b.layers) : (b.outward i j).dot (b.direction i' j') ≤ b.reach := by
  have hfour := b.four_le
  have hnear : Real.cos (Mesh.sliceAngle (2 * b.layers) j' - midAngle (2 * b.layers) j)
      ≤ Real.cos (Real.pi / (2 * b.layers : ℕ)) := cos_sub_midAngle_le (by omega) (by omega)
  rw [← layerAngle_eq_sliceAngle] at hnear
  have hsin := (sin_midAngle_pos hj).le
  obtain ⟨hnonneg, hle⟩ := layerAngle_mem hj'
  have hsin' := Real.sin_nonneg_of_nonneg_of_le_pi hnonneg hle
  rw [outward_dot_direction]
  calc _ ≤ Real.sin (midAngle (2 * b.layers) j) * Real.sin (layerAngle b.layers j')
          * Real.cos (Real.pi / b.slices)
        + Real.cos (midAngle (2 * b.layers) j) * Real.cos (layerAngle b.layers j')
          * Real.cos (Real.pi / b.slices) := by
        gcongr
        exact cos_sub_midAngle_le hi hi'
    _ = Real.cos (Real.pi / b.slices)
          * Real.cos (layerAngle b.layers j' - midAngle (2 * b.layers) j) := by
        rw [Real.cos_sub]
        ring
    _ ≤ b.reach := by
        unfold reach
        gcongr
        exact (cos_pi_div_pos (by omega)).le

/-! ### The outline of a face -/

/-- The normal of the outline of a cell, which may have two corners that are one. -/
theorem outlineNormal_cell {N : ℕ → ℕ → Vertex ℝ} {layers i j : ℕ} (hlayers : 2 ≤ layers)
    (hj : j < layers) (hfirst : (N (i + 1) 0).pos = (N i 0).pos)
    (hlast : (N (i + 1) layers).pos = (N i layers).pos) :
    Plane.outlineNormal (Grid.cell N layers i j)
      = ((N (i + 1) j).pos - (N i (j + 1)).pos).cross ((N i j).pos - (N (i + 1) (j + 1)).pos) := by
  by_cases hzero : j = 0
  · subst hzero
    rw [Grid.cell_first (by omega), Plane.outlineNormal_three, hfirst]
    ext <;> simp [cross] <;> ring
  by_cases hend : j + 1 = layers
  · subst hend
    rw [Grid.cell_last (by omega), Plane.outlineNormal_three, hlast]
  · rw [Grid.cell_middle (by omega) (by omega), Plane.outlineNormal_four]

/-- How long the normal of the outline of a face is compared to the face's direction. -/
noncomputable def weight (j : ℕ) : ℝ :=
  8 * (b.radius * b.radius) * Real.sin (midAngle (2 * b.layers) j) * Real.sin (Real.pi / b.slices)
    * (Real.sin (Real.pi / (2 * b.layers : ℕ)) * Real.cos (Real.pi / (2 * b.layers : ℕ)))

theorem weight_pos (hj : j < b.layers) : 0 < b.weight j := by
  have hradius := b.radius_pos
  have hfour := b.four_le
  have htwo := b.two_le
  have h₁ := sin_midAngle_pos hj
  have h₂ : 0 < Real.sin (Real.pi / b.slices) := sin_pi_div_pos (by omega)
  have h₃ : 0 < Real.sin (Real.pi / (2 * b.layers : ℕ)) := sin_pi_div_pos (by omega)
  have h₄ : 0 < Real.cos (Real.pi / (2 * b.layers : ℕ)) := cos_pi_div_pos (by omega)
  unfold weight
  positivity

/-- The outline of a face is across its direction. -/
theorem outlineNormal_face (i : ℕ) (hj : j < b.layers) :
    Plane.outlineNormal (b.face i j).vertices = b.weight j • b.outward i j := by
  have hpole : ∀ i, b.direction i 0 = ⟨0, 0, 1⟩ ∧ b.direction i b.layers = ⟨0, 0, -1⟩ := by
    have htwo := b.two_le
    intro i
    simp [direction, layerAngle_zero, layerAngle_self (show 0 < b.layers by omega)]
  have hcell : Plane.outlineNormal (b.face i j).vertices = (b.radius * b.radius) •
      (b.direction (i + 1) j - b.direction i (j + 1)).cross
        (b.direction i j - b.direction (i + 1) (j + 1)) := by
    rw [face, Polygon.ofVertices, outlineNormal_cell b.two_le hj]
    · ext <;> simp [corner, cross] <;> ring
    · rw [corner, corner, (hpole (i + 1)).1, (hpole i).1]
    · rw [corner, corner, (hpole (i + 1)).2, (hpole i).2]
  -- in terms of the middle of the slice and of the layer
  set u := midAngle b.slices i with hu
  set v := midAngle (2 * b.layers) j with hv
  set w := Real.pi / b.slices with hw
  set z := Real.pi / (2 * b.layers : ℕ) with hz
  have hslice : (Mesh.sliceAngle b.slices i : ℝ) = u - w := sliceAngle_eq_midAngle_sub _ _
  have hslice' : (Mesh.sliceAngle b.slices (i + 1) : ℝ) = u + w :=
    sliceAngle_succ_eq_midAngle_add _ _
  have hlayer : layerAngle b.layers j = v - z := by
    rw [layerAngle_eq_sliceAngle, sliceAngle_eq_midAngle_sub]
  have hlayer' : layerAngle b.layers (j + 1) = v + z := by
    rw [layerAngle_eq_sliceAngle, sliceAngle_succ_eq_midAngle_add]
  have hunit := Real.sin_sq_add_cos_sq u
  rw [hcell, weight, ← hv, ← hw, ← hz]
  simp only [direction, outward, hslice, hslice', hlayer, hlayer', ← hu, ← hv, ← hw,
    Real.sin_add, Real.sin_sub, Real.cos_add, Real.cos_sub]
  ext
  · simp [cross]
    ring
  · simp [cross]
    ring
  · simp [cross]
    linear_combination 8 * (b.radius * b.radius) * (Real.sin v * Real.cos v)
      * (Real.sin w * Real.cos w) * (Real.sin z * Real.cos z) * hunit

end Ball

/-- Every ball that is not refused has such measures. -/
theorem Mesh.exists_ball {m : Mesh ℝ} {radius : ℝ} {center : Option (Vec3 ℝ)}
    {segments : Option UInt32} (h : sphere radius center segments = .ok m) :
    ∃ b : Ball, m.polygons = b.faces ∧
      b.center = (Shape.sphere radius center segments).center := by
  obtain ⟨⟨hradius, -, hslices, -⟩, rfl⟩ := (sphere_ok_iff rfl).mp h
  exact ⟨⟨_, radius, _, _, requirePositive_real.mp hradius, hslices, le_max_right _ _⟩, rfl, rfl⟩

end Solids
