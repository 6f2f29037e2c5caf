import Mathlib
import Solids.Tree
/-!
# Solids.Proofs.Exact

**Exact numbers.** The reals as numbers that geometry is computed with, and the
vectors over them as a vector space.

Statements about geometry are made here, where an operation has no rounding. No
real is the largest one, so nothing is ever infinite, and the order is total, so
nothing fails to compare: what a definition does about either is settled by the
`simp` lemmas of this module.
-/

namespace Solids

noncomputable instance : Scalar ℝ where
  ofNat n := n
  sqrt := Real.sqrt
  largest? := none
  decLt _ _ := Classical.dec _
  decLe _ _ := Classical.dec _

noncomputable instance : Trig ℝ where
  pi := Real.pi
  sin := Real.sin
  cos := Real.cos

namespace Scalar

@[simp] theorem ofNat_real (n : ℕ) : (Scalar.ofNat n : ℝ) = n := rfl

@[simp] theorem sqrt_real (a : ℝ) : Scalar.sqrt a = Real.sqrt a := rfl

@[simp] theorem largest?_real : (Scalar.largest? : Option ℝ) = none := rfl

@[simp] theorem isFinite_real (a : ℝ) : Scalar.isFinite a = true := rfl

@[simp] theorem half_real : (half : ℝ) = 1 / 2 := by simp [half]

theorem epsilon_real : (epsilon : ℝ) = 1 / 4503599627370496 := by simp [epsilon]

theorem epsilon_pos : (0 : ℝ) < epsilon := by
  rw [epsilon_real]
  norm_num

@[simp] theorem abs_real (a : ℝ) : Scalar.abs a = |a| := by
  unfold Scalar.abs
  split
  · next h => exact (abs_of_neg h).symm
  · next h => exact (abs_of_nonneg (not_lt.mp h)).symm

@[simp] theorem isZero_real (a : ℝ) : isZero a = true ↔ a = 0 := by
  rw [isZero, same, Bool.and_eq_true, decide_eq_true_eq, decide_eq_true_eq]
  exact le_antisymm_iff.symm

@[simp] theorem smaller_real (a b : ℝ) : smaller a b = min a b := by
  unfold smaller
  split
  · next h => exact (min_eq_left h).symm
  · next h => exact (min_eq_right (not_le.mp h).le).symm

@[simp] theorem larger_real (a b : ℝ) : larger a b = max a b := by
  unfold larger
  split
  · next h => exact (max_eq_left h).symm
  · next h => exact (max_eq_right (not_le.mp h).le).symm

/-- Over the reals the negative zero that a sum starts from is zero. -/
@[simp] theorem sum_real (terms : List ℝ) : Scalar.sum terms = terms.sum := by
  unfold Scalar.sum
  rw [neg_zero]
  exact (List.sum_eq_foldl).symm

end Scalar

/-! ### Vectors -/

attribute [ext] Vec3

namespace Vec3

noncomputable instance : AddCommGroup (Vec3 ℝ) where
  add_assoc a b c := by ext <;> simp [add_assoc]
  zero_add a := by ext <;> simp
  add_zero a := by ext <;> simp
  add_comm a b := by ext <;> simp [add_comm]
  neg_add_cancel a := by ext <;> simp
  sub_eq_add_neg a b := by ext <;> simp [sub_eq_add_neg]
  nsmul := nsmulRec
  zsmul := zsmulRec

noncomputable instance : SMul ℝ (Vec3 ℝ) := ⟨fun t v => v.scale t⟩

@[simp] theorem smul_x (t : ℝ) (v : Vec3 ℝ) : (t • v).x = t * v.x := mul_comm _ _
@[simp] theorem smul_y (t : ℝ) (v : Vec3 ℝ) : (t • v).y = t * v.y := mul_comm _ _
@[simp] theorem smul_z (t : ℝ) (v : Vec3 ℝ) : (t • v).z = t * v.z := mul_comm _ _

noncomputable instance : Module ℝ (Vec3 ℝ) where
  one_smul v := by ext <;> simp
  mul_smul s t v := by ext <;> simp [mul_assoc]
  smul_zero t := by ext <;> simp
  smul_add t a b := by ext <;> simp [mul_add]
  add_smul s t v := by ext <;> simp [add_mul]
  zero_smul v := by ext <;> simp

/-! ### The scalar product -/

theorem dot_comm (a b : Vec3 ℝ) : a.dot b = b.dot a := by
  simp only [dot]
  ring

@[simp] theorem dot_add (n a b : Vec3 ℝ) : n.dot (a + b) = n.dot a + n.dot b := by
  simp only [dot, add_x, add_y, add_z]
  ring

@[simp] theorem dot_sub (n a b : Vec3 ℝ) : n.dot (a - b) = n.dot a - n.dot b := by
  simp only [dot, sub_x, sub_y, sub_z]
  ring

@[simp] theorem dot_smul (n a : Vec3 ℝ) (t : ℝ) : n.dot (t • a) = t * n.dot a := by
  simp only [dot, smul_x, smul_y, smul_z]
  ring

@[simp] theorem neg_dot (n a : Vec3 ℝ) : (-n).dot a = -n.dot a := by
  simp only [dot, neg_x, neg_y, neg_z]
  ring

@[simp] theorem dot_zero (n : Vec3 ℝ) : n.dot 0 = 0 := by simp [dot]

theorem dot_self_eq_zero {n : Vec3 ℝ} : n.dot n = 0 ↔ n = 0 := by
  constructor
  · intro h
    simp only [dot] at h
    ext
    · show n.x = 0
      nlinarith [mul_self_nonneg n.x, mul_self_nonneg n.y, mul_self_nonneg n.z]
    · show n.y = 0
      nlinarith [mul_self_nonneg n.x, mul_self_nonneg n.y, mul_self_nonneg n.z]
    · show n.z = 0
      nlinarith [mul_self_nonneg n.x, mul_self_nonneg n.y, mul_self_nonneg n.z]
  · rintro rfl
    simp

theorem dot_self_pos {n : Vec3 ℝ} (h : n ≠ 0) : 0 < n.dot n := by
  have hne : n.dot n ≠ 0 := fun h0 => h (dot_self_eq_zero.mp h0)
  have hnonneg : 0 ≤ n.dot n := by
    simp only [dot]
    nlinarith [mul_self_nonneg n.x, mul_self_nonneg n.y, mul_self_nonneg n.z]
  exact lt_of_le_of_ne hnonneg hne.symm

end Vec3

end Solids
