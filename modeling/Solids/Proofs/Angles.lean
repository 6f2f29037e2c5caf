import Solids.Proofs.Faces
/-!
# Solids.Proofs.Angles

**The angles of round shapes.** The slices of a round shape divide a full turn evenly, and its
layers half a turn.

Main definitions:

* `layerAngle` — where a layer begins; for slices this is `Mesh.sliceAngle`;
* `midAngle` — the middle of a slice.

Main statements:

* `eq_or_wrap_of_cos_eq_of_sin_eq` — no two slices but the last and the first meet;
* `cos_sub_midAngle_le` — no slice begins nearer to the middle of a slice than that one.
-/

namespace Solids

/-! ### Slices -/

theorem sliceAngle_eq (n i : ℕ) : (Mesh.sliceAngle n i : ℝ) = 2 * i * (Real.pi / n) := by
  show 2 * Real.pi * (i : ℝ) / (n : ℝ) = _
  ring

/-- A full turn is the only way to come back to a direction. -/
theorem eq_or_wrap_of_cos_eq_of_sin_eq {n i i' : ℕ} (hn : 0 < n) (hi : i ≤ n) (hi' : i' ≤ n)
    (hcos : Real.cos (Mesh.sliceAngle n i) = Real.cos (Mesh.sliceAngle n i'))
    (hsin : Real.sin (Mesh.sliceAngle n i) = Real.sin (Mesh.sliceAngle n i')) :
    i = i' ∨ i = 0 ∧ i' = n ∨ i = n ∧ i' = 0 := by
  have hone : Real.cos (Mesh.sliceAngle n i - Mesh.sliceAngle n i') = 1 := by
    rw [Real.cos_sub, hcos, hsin]
    linarith [Real.sin_sq_add_cos_sq (Mesh.sliceAngle n i')]
  obtain ⟨k, hk⟩ := (Real.cos_eq_one_iff _).mp hone
  have hpos : (0 : ℝ) < n := by exact_mod_cast hn
  have hturns : (k * n : ℝ) = i - i' := by
    have hpi := Real.pi_ne_zero
    rw [sliceAngle_eq, sliceAngle_eq] at hk
    field_simp at hk
    linarith
  have hturns : k * n = (i : ℤ) - i' := by exact_mod_cast hturns
  rcases lt_trichotomy k 0 with hneg | rfl | hpos
  · have hle : k * n ≤ -1 * n := by gcongr; omega
    omega
  · omega
  · have hle : 1 * (n : ℤ) ≤ k * n := by gcongr; omega
    omega

/-- After a full turn the direction is the first one again. -/
theorem cos_sliceAngle_self {n : ℕ} (hn : 0 < n) :
    Real.cos (Mesh.sliceAngle n n) = Real.cos (Mesh.sliceAngle n 0) ∧
      Real.sin (Mesh.sliceAngle n n) = Real.sin (Mesh.sliceAngle n 0) := by
  have hpos : (0 : ℝ) < n := by exact_mod_cast hn
  have hlast : (Mesh.sliceAngle n n : ℝ) = 2 * Real.pi := by
    rw [sliceAngle_eq]
    field_simp
  have hfirst : (Mesh.sliceAngle n 0 : ℝ) = 0 := by simp [sliceAngle_eq]
  rw [hlast, hfirst]
  simp

/-- Where the places of a grid meet, and not at a pole, the directions are the same. -/
theorem cos_eq_of_wrap {n i i' : ℕ} (hn : 0 < n) (h : i = i' ∨ i = 0 ∧ i' = n ∨ i = n ∧ i' = 0) :
    Real.cos (Mesh.sliceAngle n i) = Real.cos (Mesh.sliceAngle n i') ∧
      Real.sin (Mesh.sliceAngle n i) = Real.sin (Mesh.sliceAngle n i') := by
  obtain ⟨hcos, hsin⟩ := cos_sliceAngle_self hn
  rcases h with rfl | ⟨rfl, rfl⟩ | ⟨rfl, rfl⟩
  · exact ⟨rfl, rfl⟩
  · exact ⟨hcos.symm, hsin.symm⟩
  · exact ⟨hcos, hsin⟩

/-- The middle of slice `i`. -/
noncomputable def midAngle (n i : ℕ) : ℝ := Mesh.sliceAngle n i + Real.pi / n

theorem sliceAngle_eq_midAngle_sub (n i : ℕ) :
    Mesh.sliceAngle n i = midAngle n i - Real.pi / n := by
  rw [midAngle, add_sub_cancel_right]

theorem sliceAngle_succ_eq_midAngle_add (n i : ℕ) :
    Mesh.sliceAngle n (i + 1) = midAngle n i + Real.pi / n := by
  rw [midAngle, sliceAngle_eq, sliceAngle_eq]
  push_cast
  ring

/-- Both ends of a slice are equally far from its middle. -/
theorem cos_sub_midAngle {n i i' : ℕ} (h : i' = i ∨ i' = i + 1) :
    Real.cos (Mesh.sliceAngle n i' - midAngle n i) = Real.cos (Real.pi / n) := by
  rcases h with rfl | rfl
  · rw [sliceAngle_eq_midAngle_sub, sub_sub_cancel_left, Real.cos_neg]
  · rw [sliceAngle_succ_eq_midAngle_add, add_sub_cancel_left]

/-- No slice begins nearer to the middle of a slice than that one. -/
theorem cos_sub_midAngle_le {n i i' : ℕ} (hi : i < n) (hi' : i' ≤ n) :
    Real.cos (Mesh.sliceAngle n i' - midAngle n i) ≤ Real.cos (Real.pi / n) := by
  set w := Real.pi / n with hw
  have hpi := Real.pi_pos
  have hpos : (0 : ℝ) < n := by exact_mod_cast (by omega : 0 < n)
  -- half the sum and half the difference of the two angles are whole steps of `w`
  have hsin : ∀ k : ℕ, k ≤ n → 0 ≤ Real.sin (k * w) := by
    intro k hk
    have hk : (k : ℝ) ≤ n := by exact_mod_cast hk
    refine Real.sin_nonneg_of_nonneg_of_le_pi (by positivity) ?_
    calc k * w ≤ n * w := by gcongr
      _ = Real.pi := by rw [hw]; field_simp
  have hcos : Real.cos (Mesh.sliceAngle n i' - midAngle n i) - Real.cos w
      = -2 * Real.sin ((i' - i) * w) * Real.sin ((i' - i - 1) * w) := by
    rw [Real.cos_sub_cos, midAngle, sliceAngle_eq, sliceAngle_eq, ← hw]
    ring_nf
  rcases le_or_gt i' i with hle | hlt
  · obtain ⟨k, rfl⟩ := Nat.exists_eq_add_of_le hle
    have h₁ := hsin k (by omega)
    have h₂ := hsin (k + 1) (by omega)
    have hneg₁ : ((i' : ℝ) - (i' + k : ℕ)) * w = -(k * w) := by push_cast; ring
    have hneg₂ : ((i' : ℝ) - (i' + k : ℕ) - 1) * w = -((k + 1 : ℕ) * w) := by push_cast; ring
    rw [hneg₁, hneg₂, Real.sin_neg, Real.sin_neg] at hcos
    nlinarith [mul_nonneg h₁ h₂]
  · obtain ⟨k, rfl⟩ := Nat.exists_eq_add_of_lt hlt
    have h₁ := hsin (k + 1) (by omega)
    have h₂ := hsin k (by omega)
    have hpos₁ : ((i + k + 1 : ℕ) - (i : ℝ)) * w = (k + 1 : ℕ) * w := by push_cast; ring
    have hpos₂ : ((i + k + 1 : ℕ) - (i : ℝ) - 1) * w = k * w := by push_cast; ring
    rw [hpos₁, hpos₂] at hcos
    nlinarith [mul_nonneg h₁ h₂]

theorem sin_pi_div_pos {n : ℕ} (hn : 2 ≤ n) : 0 < Real.sin (Real.pi / n) := by
  have hpi := Real.pi_pos
  have htwo : (2 : ℝ) ≤ n := by exact_mod_cast hn
  exact Real.sin_pos_of_pos_of_lt_pi (by positivity) (div_lt_self hpi (by linarith))

theorem cos_pi_div_pos {n : ℕ} (hn : 3 ≤ n) : 0 < Real.cos (Real.pi / n) := by
  have hpi := Real.pi_pos
  have hthree : (3 : ℝ) ≤ n := by exact_mod_cast hn
  refine Real.cos_pos_of_mem_Ioo ⟨?_, div_lt_div_of_pos_left hpi two_pos (by linarith)⟩
  have hnonneg : 0 ≤ Real.pi / n := by positivity
  linarith

/-! ### Layers -/

/-- How far down from the first pole layer `j` begins. -/
noncomputable def layerAngle (layers j : ℕ) : ℝ := Real.pi * j / layers

theorem layerAngle_zero (layers : ℕ) : layerAngle layers 0 = 0 := by simp [layerAngle]

theorem layerAngle_self {layers : ℕ} (h : 0 < layers) : layerAngle layers layers = Real.pi := by
  have hpos : (0 : ℝ) < layers := by exact_mod_cast h
  rw [layerAngle]
  field_simp

theorem layerAngle_mem {layers j : ℕ} (hj : j ≤ layers) :
    layerAngle layers j ∈ Set.Icc 0 Real.pi := by
  have hpi := Real.pi_pos
  have hle : (j : ℝ) ≤ layers := by exact_mod_cast hj
  refine ⟨by unfold layerAngle; positivity, ?_⟩
  exact div_le_of_le_mul₀ (by positivity) hpi.le (by gcongr)

theorem layerAngle_injective {layers : ℕ} (h : 0 < layers) :
    Function.Injective (layerAngle layers) := by
  intro j j' heq
  have hpos : (0 : ℝ) < layers := by exact_mod_cast h
  have heq := mul_left_cancel₀ Real.pi_ne_zero ((div_left_inj' hpos.ne').mp heq)
  exact_mod_cast heq

/-- Between the poles a layer begins away from the axis. -/
theorem sin_layerAngle_pos {layers j : ℕ} (hfirst : 0 < j) (hlast : j < layers) :
    0 < Real.sin (layerAngle layers j) := by
  have hlayers : 0 < layers := by omega
  obtain ⟨hnonneg, hle⟩ := layerAngle_mem hlast.le
  refine Real.sin_pos_of_pos_of_lt_pi (lt_of_le_of_ne hnonneg fun hzero => ?_)
    (lt_of_le_of_ne hle fun hpi => ?_)
  · exact hfirst.ne (layerAngle_injective hlayers ((layerAngle_zero layers).trans hzero))
  · exact hlast.ne (layerAngle_injective hlayers (hpi.trans (layerAngle_self hlayers).symm))

/-- Layers are slices of half a turn. -/
theorem layerAngle_eq_sliceAngle (layers j : ℕ) :
    layerAngle layers j = Mesh.sliceAngle (2 * layers) j := by
  rw [layerAngle, sliceAngle_eq]
  push_cast
  ring

/-- The middle of a layer is away from the axis. -/
theorem sin_midAngle_pos {layers j : ℕ} (hj : j < layers) :
    0 < Real.sin (midAngle (2 * layers) j) := by
  have hpi := Real.pi_pos
  have hpos : (0 : ℝ) < layers := by exact_mod_cast (by omega : 0 < layers)
  have hlt : (2 * j + 1 : ℝ) < 2 * layers := by exact_mod_cast (by omega : 2 * j + 1 < 2 * layers)
  have hangle : midAngle (2 * layers) j = (2 * j + 1) / (2 * layers) * Real.pi := by
    rw [midAngle, sliceAngle_eq]
    push_cast
    ring
  rw [hangle]
  refine Real.sin_pos_of_pos_of_lt_pi (by positivity) (mul_lt_of_lt_one_left hpi ?_)
  rwa [div_lt_one (by positivity)]

end Solids
