import Solids.Proofs.Newell
import Solids.Mesh.Motion
/-!
# Solids.Proofs.Affine

**Affine maps over the reals**, as what they do to points, to directions and to normals.

Main definitions:

* `Mat4.IsAffine` — the bottom row is `0 0 0 1`;
* `Mat4.linear`, `Mat4.offset` — the two parts of an affine map;
* `Mat4.conormal` — the inverse transpose of the linear part, which is what a normal is to be
  mapped by;
* `Mat4.advance` — how far the origin is moved along what becomes of a normal;
* `Mat4.mul` — the product of matrices.

Main statements:

* `Mat4.mapPoint_eq` — a point goes where the two parts take it;
* `Mat4.mapVector_of_normalMatrix?` — a normal does not. It is divided by the number that the
  bottom row of the inverse transpose makes of it, which is `advance` with the other sign.
-/

namespace Solids

namespace Mat4

/-- The bottom row is that of an affine map. -/
structure IsAffine (m : Mat4 ℝ) : Prop where
  /-- The first entry is zero. -/
  m30 : m.m30 = 0
  /-- The second entry is zero. -/
  m31 : m.m31 = 0
  /-- The third entry is zero. -/
  m32 : m.m32 = 0
  /-- The last entry is one. -/
  m33 : m.m33 = 1

variable {m : Mat4 ℝ}

/-! ### The two parts -/

/-- What the map does to directions. -/
noncomputable def linear (m : Mat4 ℝ) (v : Vec3 ℝ) : Vec3 ℝ :=
  ⟨m.m00 * v.x + m.m01 * v.y + m.m02 * v.z,
   m.m10 * v.x + m.m11 * v.y + m.m12 * v.z,
   m.m20 * v.x + m.m21 * v.y + m.m22 * v.z⟩

/-- Where the map takes the origin. -/
noncomputable def offset (m : Mat4 ℝ) : Vec3 ℝ := ⟨m.m03, m.m13, m.m23⟩

theorem mapPoint_eq (h : m.IsAffine) (p : Vec3 ℝ) : m.mapPoint p = m.linear p + m.offset := by
  have hbottom : Scalar.isZero (m.m30 * p.x + m.m31 * p.y + m.m32 * p.z + m.m33) = false := by
    rw [Bool.eq_false_iff, ne_eq, Scalar.isZero_real]
    simp [h.m30, h.m31, h.m32, h.m33]
  simp only [mapPoint, hbottom, Bool.false_eq_true, if_false]
  ext <;> simp [linear, offset, h.m30, h.m31, h.m32, h.m33]

/-! ### Directions and normals -/

/-- What becomes of the vector product of two directions. -/
noncomputable def cofactor (m : Mat4 ℝ) (v : Vec3 ℝ) : Vec3 ℝ :=
  ⟨(m.m11 * m.m22 - m.m12 * m.m21) * v.x + (m.m12 * m.m20 - m.m10 * m.m22) * v.y
      + (m.m10 * m.m21 - m.m11 * m.m20) * v.z,
   (m.m02 * m.m21 - m.m01 * m.m22) * v.x + (m.m00 * m.m22 - m.m02 * m.m20) * v.y
      + (m.m01 * m.m20 - m.m00 * m.m21) * v.z,
   (m.m01 * m.m12 - m.m02 * m.m11) * v.x + (m.m02 * m.m10 - m.m00 * m.m12) * v.y
      + (m.m00 * m.m11 - m.m01 * m.m10) * v.z⟩

theorem cross_linear (m : Mat4 ℝ) (u v : Vec3 ℝ) :
    (m.linear u).cross (m.linear v) = m.cofactor (u.cross v) := by
  ext <;> simp [linear, cofactor, Vec3.cross] <;> ring

theorem dot_cofactor (m : Mat4 ℝ) (u v : Vec3 ℝ) :
    (m.linear u).dot (m.cofactor v) = m.linearDet * u.dot v := by
  simp only [linear, cofactor, linearDet, Vec3.dot]
  ring

@[simp] theorem cofactor_add (m : Mat4 ℝ) (u v : Vec3 ℝ) :
    m.cofactor (u + v) = m.cofactor u + m.cofactor v := by
  ext <;> simp [cofactor] <;> ring

@[simp] theorem cofactor_smul (m : Mat4 ℝ) (k : ℝ) (v : Vec3 ℝ) :
    m.cofactor (k • v) = k • m.cofactor v := by
  ext <;> simp [cofactor] <;> ring

@[simp] theorem cofactor_zero (m : Mat4 ℝ) : m.cofactor 0 = 0 := by
  ext <;> simp [cofactor]

/-- What a normal should become: the inverse transpose of the linear part. -/
noncomputable def conormal (m : Mat4 ℝ) (v : Vec3 ℝ) : Vec3 ℝ := m.linearDet⁻¹ • m.cofactor v

/-- Directions and normals keep their products. -/
theorem dot_conormal (hdet : m.linearDet ≠ 0) (u v : Vec3 ℝ) :
    (m.linear u).dot (m.conormal v) = u.dot v := by
  rw [conormal, Vec3.dot_smul, dot_cofactor, inv_mul_cancel_left₀ hdet]

@[simp] theorem conormal_smul (m : Mat4 ℝ) (k : ℝ) (v : Vec3 ℝ) :
    m.conormal (k • v) = k • m.conormal v := by
  rw [conormal, conormal, cofactor_smul, smul_comm]

@[simp] theorem conormal_zero (m : Mat4 ℝ) : m.conormal 0 = 0 := by simp [conormal]

@[simp] theorem conormal_add (m : Mat4 ℝ) (u v : Vec3 ℝ) :
    m.conormal (u + v) = m.conormal u + m.conormal v := by
  rw [conormal, cofactor_add, smul_add, conormal, conormal]

/-- The cofactors are the transposed inverse but for the determinant. -/
theorem cofactor_eq (hdet : m.linearDet ≠ 0) (v : Vec3 ℝ) :
    m.cofactor v = m.linearDet • m.conormal v := by
  rw [conormal, smul_inv_smul₀ hdet]

/-- How far the origin is moved along what becomes of a normal. -/
noncomputable def advance (m : Mat4 ℝ) (v : Vec3 ℝ) : ℝ := m.offset.dot (m.conormal v)

@[simp] theorem advance_zero (m : Mat4 ℝ) : m.advance 0 = 0 := by simp [advance]

@[simp] theorem advance_add (m : Mat4 ℝ) (u v : Vec3 ℝ) :
    m.advance (u + v) = m.advance u + m.advance v := by
  rw [advance, conormal_add, Vec3.dot_add, advance, advance]

theorem advance_smul (m : Mat4 ℝ) (k : ℝ) (v : Vec3 ℝ) : m.advance (k • v) = k * m.advance v := by
  rw [advance, conormal_smul, Vec3.dot_smul]
  rfl

/-- A point after the map, along what becomes of a normal. -/
theorem dot_conormal_mapPoint (h : m.IsAffine) (hdet : m.linearDet ≠ 0) (v p : Vec3 ℝ) :
    (m.conormal v).dot (m.mapPoint p) = v.dot p + m.advance v := by
  rw [mapPoint_eq h, Vec3.dot_add, Vec3.dot_comm, dot_conormal hdet, Vec3.dot_comm p, advance,
    Vec3.dot_comm m.offset]

/-! ### The matrix for normals -/

theorem det_eq_linearDet (h : m.IsAffine) : m.det = m.linearDet := by
  simp only [det, adjugate, linearDet, h.m30, h.m31, h.m32, h.m33]
  ring

theorem normalMatrix?_eq (h : m.IsAffine) (hdet : m.linearDet ≠ 0) :
    m.normalMatrix? = some (m.adjugate.scaleEntries m.linearDet⁻¹).transpose := by
  simp [normalMatrix?, inverse?, det_eq_linearDet h, hdet]

/-- What the matrix for normals makes of one. It points the other way where the origin is moved
along it. -/
theorem mapVector_of_normalMatrix? (h : m.IsAffine) (hdet : m.linearDet ≠ 0) {normals : Mat4 ℝ}
    (hnormals : m.normalMatrix? = some normals) (v : Vec3 ℝ) :
    normals.mapVector v =
      if m.advance v = 0 then m.conormal v else (-m.advance v)⁻¹ • m.conormal v := by
  obtain rfl : (m.adjugate.scaleEntries m.linearDet⁻¹).transpose = normals :=
    Option.some.inj ((normalMatrix?_eq h hdet).symm.trans hnormals)
  set normals := (m.adjugate.scaleEntries m.linearDet⁻¹).transpose with hmatrix
  have hlinear (u : Vec3 ℝ) : normals.linear u = m.conormal u := by
    ext <;> simp [hmatrix, linear, conormal, cofactor, transpose, scaleEntries, adjugate, h.m30,
      h.m31, h.m32, h.m33] <;> ring
  have hbottom : normals.m30 * v.x + normals.m31 * v.y + normals.m32 * v.z = -m.advance v := by
    simp only [hmatrix, advance, offset, conormal, cofactor, transpose, scaleEntries, adjugate,
      Vec3.dot, Vec3.smul_x, Vec3.smul_y, Vec3.smul_z]
    ring
  have hmap : normals.mapVector v =
      normals.linear (if m.advance v = 0 then v else v.divide (-m.advance v)) := by
    simp only [mapVector, hbottom, Scalar.isZero_real, neg_eq_zero]
    rfl
  rw [hmap, hlinear]
  split
  · rfl
  · rw [Vec3.divide_eq_smul, conormal_smul]

/-! ### Translations -/

theorem isAffine_translation (t : Vec3 ℝ) : (translation t).IsAffine := ⟨rfl, rfl, rfl, rfl⟩

@[simp] theorem linearDet_translation (t : Vec3 ℝ) : (translation t).linearDet = 1 := by
  simp [translation, linearDet]

theorem mapPoint_translation (t p : Vec3 ℝ) : (translation t).mapPoint p = p + t := by
  rw [mapPoint_eq (isAffine_translation t)]
  ext <;> simp [translation, linear, offset]

@[simp] theorem conormal_translation (t v : Vec3 ℝ) : (translation t).conormal v = v := by
  ext <;> simp [translation, conormal, cofactor, linearDet]

@[simp] theorem advance_translation (t v : Vec3 ℝ) : (translation t).advance v = t.dot v := by
  rw [advance, conormal_translation]
  rfl

theorem exists_normalMatrix?_translation (t : Vec3 ℝ) :
    ∃ normals, (translation t).normalMatrix? = some normals :=
  ⟨_, normalMatrix?_eq (isAffine_translation t) (by simp)⟩

theorem inverse?_translation (t : Vec3 ℝ) : (translation t).inverse? = some (translation (-t)) := by
  rw [inverse?, det_eq_linearDet (isAffine_translation t), linearDet_translation]
  simp [translation, adjugate, scaleEntries]

/-! ### Products -/

/-- The product of two matrices, which maps by the right one first. -/
noncomputable def mul (a b : Mat4 ℝ) : Mat4 ℝ :=
  ⟨a.m00 * b.m00 + a.m01 * b.m10 + a.m02 * b.m20 + a.m03 * b.m30,
   a.m00 * b.m01 + a.m01 * b.m11 + a.m02 * b.m21 + a.m03 * b.m31,
   a.m00 * b.m02 + a.m01 * b.m12 + a.m02 * b.m22 + a.m03 * b.m32,
   a.m00 * b.m03 + a.m01 * b.m13 + a.m02 * b.m23 + a.m03 * b.m33,
   a.m10 * b.m00 + a.m11 * b.m10 + a.m12 * b.m20 + a.m13 * b.m30,
   a.m10 * b.m01 + a.m11 * b.m11 + a.m12 * b.m21 + a.m13 * b.m31,
   a.m10 * b.m02 + a.m11 * b.m12 + a.m12 * b.m22 + a.m13 * b.m32,
   a.m10 * b.m03 + a.m11 * b.m13 + a.m12 * b.m23 + a.m13 * b.m33,
   a.m20 * b.m00 + a.m21 * b.m10 + a.m22 * b.m20 + a.m23 * b.m30,
   a.m20 * b.m01 + a.m21 * b.m11 + a.m22 * b.m21 + a.m23 * b.m31,
   a.m20 * b.m02 + a.m21 * b.m12 + a.m22 * b.m22 + a.m23 * b.m32,
   a.m20 * b.m03 + a.m21 * b.m13 + a.m22 * b.m23 + a.m23 * b.m33,
   a.m30 * b.m00 + a.m31 * b.m10 + a.m32 * b.m20 + a.m33 * b.m30,
   a.m30 * b.m01 + a.m31 * b.m11 + a.m32 * b.m21 + a.m33 * b.m31,
   a.m30 * b.m02 + a.m31 * b.m12 + a.m32 * b.m22 + a.m33 * b.m32,
   a.m30 * b.m03 + a.m31 * b.m13 + a.m32 * b.m23 + a.m33 * b.m33⟩

variable {first second : Mat4 ℝ}

theorem IsAffine.mul (hsecond : second.IsAffine) (hfirst : first.IsAffine) :
    (second.mul first).IsAffine := by
  constructor <;>
    simp [Mat4.mul, hfirst.m30, hfirst.m31, hfirst.m32, hfirst.m33, hsecond.m30, hsecond.m31,
      hsecond.m32, hsecond.m33]

theorem linearDet_mul (hfirst : first.IsAffine) (second : Mat4 ℝ) :
    (second.mul first).linearDet = second.linearDet * first.linearDet := by
  simp only [mul, linearDet, hfirst.m30, hfirst.m31, hfirst.m32]
  ring

theorem linearDet_mul_ne_zero (hfirst : first.IsAffine) (hdet : first.linearDet ≠ 0)
    (hdet' : second.linearDet ≠ 0) : (second.mul first).linearDet ≠ 0 := by
  rw [linearDet_mul hfirst]
  exact mul_ne_zero hdet' hdet

theorem mapPoint_mul (hsecond : second.IsAffine) (hfirst : first.IsAffine) (p : Vec3 ℝ) :
    (second.mul first).mapPoint p = second.mapPoint (first.mapPoint p) := by
  rw [mapPoint_eq (hsecond.mul hfirst), mapPoint_eq hsecond, mapPoint_eq hfirst]
  ext <;> simp [mul, linear, offset, hfirst.m30, hfirst.m31, hfirst.m32, hfirst.m33] <;> ring

theorem conormal_mul (hfirst : first.IsAffine) (second : Mat4 ℝ) (v : Vec3 ℝ) :
    (second.mul first).conormal v = second.conormal (first.conormal v) := by
  have hcofactor : (second.mul first).cofactor v = second.cofactor (first.cofactor v) := by
    ext <;> simp [mul, cofactor, hfirst.m30, hfirst.m31, hfirst.m32] <;> ring
  rw [conormal, conormal, conormal, linearDet_mul hfirst, hcofactor, cofactor_smul, smul_smul,
    mul_inv]

/-- How far the origin is moved by both, along what becomes of a normal: by the one and then by the
other. -/
theorem advance_mul (hfirst : first.IsAffine) (hdet : second.linearDet ≠ 0) (v : Vec3 ℝ) :
    (second.mul first).advance v = first.advance v + second.advance (first.conormal v) := by
  have hoffset : (second.mul first).offset = second.linear first.offset + second.offset := by
    ext <;> simp [mul, linear, offset, hfirst.m33]
  rw [advance, conormal_mul hfirst, hoffset, Vec3.dot_comm, Vec3.dot_add, Vec3.dot_comm,
    dot_conormal hdet, Vec3.dot_comm _ second.offset]
  rfl

/-- The inverse undoes the map. -/
theorem mul_of_inverse? (hfirst : first.IsAffine) (hinverse : first.inverse? = some second) :
    second.mul first = translation 0 := by
  have hdet : first.linearDet ≠ 0 := by
    intro hzero
    simp [inverse?, det_eq_linearDet hfirst, hzero] at hinverse
  obtain rfl : first.adjugate.scaleEntries first.linearDet⁻¹ = second := by
    simpa [inverse?, det_eq_linearDet hfirst, hdet] using hinverse
  have hone := inv_mul_cancel₀ hdet
  set k := first.linearDet⁻¹
  rw [linearDet] at hone
  simp only [mul, adjugate, scaleEntries, translation, hfirst.m30, hfirst.m31, hfirst.m32,
    hfirst.m33, Vec3.zero_x, Vec3.zero_y, Vec3.zero_z, mk.injEq]
  -- the entries on the diagonal are the determinant times its inverse, the others cancel out
  refine ⟨?_, ?_, ?_, ?_, ?_, ?_, ?_, ?_, ?_, ?_, ?_, ?_, ?_, ?_, ?_, ?_⟩ <;>
    first | ring1 | linear_combination hone

end Mat4

end Solids
