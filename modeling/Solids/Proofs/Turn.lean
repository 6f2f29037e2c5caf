import Solids.Proofs.Exact
/-!
# Solids.Proofs.Turn

**Turns.** How far three points turn left, seen against a direction `n`, and what
the turns say about points of a plane across `n`.

Main statements:

* `Vec3.exists_mem_diagonals` — the diagonals of four points in order meet;
* `Vec3.mem_segment_of_turn_eq_zero` — a point on the line through two others
  that is between them along some direction is between them.
-/

namespace Solids.Vec3

/-! ### Vector products -/

/-- The relation that any four vectors of space satisfy. -/
theorem smul_sub_add_smul (n u v w : Vec3 ℝ) :
    n.dot (v.cross w) • u - n.dot (u.cross w) • v + n.dot (u.cross v) • w
      = u.dot (v.cross w) • n := by
  ext <;> simp [dot, cross] <;> ring

/-- Three vectors across one direction span no volume. -/
theorem dot_cross_eq_zero {n u v w : Vec3 ℝ} (hn : n ≠ 0) (hu : n.dot u = 0)
    (hv : n.dot v = 0) (hw : n.dot w = 0) : u.dot (v.cross w) = 0 := by
  have h := congrArg n.dot (smul_sub_add_smul n u v w)
  simp only [dot_add, dot_sub, dot_smul, hu, hv, hw, mul_zero, sub_zero, add_zero] at h
  exact (mul_eq_zero.mp h.symm).resolve_right (dot_self_pos hn).ne'

/-- Three vectors across one direction are linearly dependent, with the areas they
span as coefficients. -/
theorem smul_add_smul_of_level {n u v w : Vec3 ℝ} (hn : n ≠ 0) (hu : n.dot u = 0)
    (hv : n.dot v = 0) (hw : n.dot w = 0) :
    n.dot (v.cross w) • u + n.dot (u.cross v) • w = n.dot (u.cross w) • v := by
  have h := smul_sub_add_smul n u v w
  rw [dot_cross_eq_zero hn hu hv hw, zero_smul, sub_add_eq_add_sub, sub_eq_zero] at h
  exact h

/-- Two vectors across a direction that span no area along it are parallel. -/
theorem cross_eq_zero_of_level {n u v : Vec3 ℝ} (hn : n ≠ 0) (hu : n.dot u = 0)
    (hv : n.dot v = 0) (h : n.dot (u.cross v) = 0) : u.cross v = 0 := by
  have key : n.dot n • u.cross v
      = n.dot (u.cross v) • n - (n.cross (n.dot v • u - n.dot u • v)) := by
    ext <;> simp [dot, cross] <;> ring
  rw [hu, hv, h] at key
  have hz : n.dot n • u.cross v = 0 := by
    rw [key]
    ext <;> simp [cross]
  exact (smul_eq_zero.mp hz).resolve_left (dot_self_pos hn).ne'

/-- Parallel vectors are in the ratio of their components along any `m`. -/
theorem smul_eq_smul_of_cross_eq_zero {u v : Vec3 ℝ} (m : Vec3 ℝ) (h : u.cross v = 0) :
    m.dot v • u = m.dot u • v := by
  have key : m.dot v • u - m.dot u • v = m.cross (u.cross v) := by
    ext <;> simp [dot, cross] <;> ring
  rw [h] at key
  rw [← sub_eq_zero, key]
  ext <;> simp [cross]

/-! ### Turns of three points -/

/-- How far the way from `a` over `b` to `c` turns left, seen against `n`. -/
noncomputable def turn (n a b c : Vec3 ℝ) : ℝ := n.dot ((b - a).cross (c - a))

@[simp] theorem turn_self_left (n a c : Vec3 ℝ) : turn n a a c = 0 := by
  simp [turn, dot, cross]

@[simp] theorem turn_self_right (n a b : Vec3 ℝ) : turn n a b b = 0 := by
  simp only [turn, dot, cross, sub_x, sub_y, sub_z]
  ring

@[simp] theorem turn_self_ends (n a b : Vec3 ℝ) : turn n a b a = 0 := by
  simp [turn, dot, cross]

theorem turn_rotate (n a b c : Vec3 ℝ) : turn n b c a = turn n a b c := by
  simp only [turn, dot, cross, sub_x, sub_y, sub_z]
  ring

theorem turn_swap (n a b c : Vec3 ℝ) : turn n a c b = -turn n a b c := by
  simp only [turn, dot, cross, sub_x, sub_y, sub_z]
  ring

theorem turn_neg (n a b c : Vec3 ℝ) : turn (-n) a b c = -turn n a b c := by
  simp only [turn, neg_dot]

/-- The two ways to cut four points into triangles give the same area. -/
theorem turn_add_turn (n a p b q : Vec3 ℝ) :
    turn n a p b + turn n a b q = turn n a p q + turn n p b q := by
  simp only [turn, dot, cross, sub_x, sub_y, sub_z]
  ring

/-- A turn is affine in its last point. -/
theorem turn_combo (n a b c d : Vec3 ℝ) {s t : ℝ} (h : s + t = 1) :
    turn n a b (s • c + t • d) = s * turn n a b c + t * turn n a b d := by
  obtain rfl : s = 1 - t := by linarith
  simp only [turn, dot, cross, sub_x, sub_y, sub_z, add_x, add_y, add_z, smul_x, smul_y, smul_z]
  ring

theorem convex_turn_last (n a b : Vec3 ℝ) : Convex ℝ {c | 0 ≤ turn n a b c} := by
  intro c hc d hd s t hs ht hst
  rw [Set.mem_ofPred_eq, turn_combo n a b c d hst]
  exact add_nonneg (mul_nonneg hs hc) (mul_nonneg ht hd)

theorem convex_turn_middle (n a c : Vec3 ℝ) : Convex ℝ {b | 0 ≤ turn n a b c} := by
  have h : {b | 0 ≤ turn n a b c} = {b | 0 ≤ turn n c a b} := by
    ext b
    rw [Set.mem_ofPred_eq, Set.mem_ofPred_eq, turn_rotate n c a b]
  rw [h]
  exact convex_turn_last n c a

theorem convex_turn_first (n b c : Vec3 ℝ) : Convex ℝ {a | 0 ≤ turn n a b c} := by
  have h : {a | 0 ≤ turn n a b c} = {a | 0 ≤ turn n b c a} := by
    ext a
    rw [Set.mem_ofPred_eq, Set.mem_ofPred_eq, turn_rotate n a b c]
  rw [h]
  exact convex_turn_last n b c

/-! ### Points of one plane -/

theorem convex_level (n : Vec3 ℝ) (c : ℝ) : Convex ℝ {x | n.dot x = c} := by
  intro a ha b hb s t hs ht hst
  have ha : n.dot a = c := ha
  have hb : n.dot b = c := hb
  rw [Set.mem_ofPred_eq, dot_add, dot_smul, dot_smul, ha, hb, ← add_mul, hst, one_mul]

/-- Four points of one plane, each weighed by the triangle that the others form. -/
theorem turn_smul_add_turn_smul {n a p b q : Vec3 ℝ} (hn : n ≠ 0) (hp : n.dot p = n.dot a)
    (hb : n.dot b = n.dot a) (hq : n.dot q = n.dot a) :
    turn n a b q • p + turn n a p b • q = turn n p b q • a + turn n a p q • b := by
  have h := smul_add_smul_of_level (u := p - a) (v := b - a) (w := q - a) hn
    (by simp [hp]) (by simp [hb]) (by simp [hq])
  have hsum : turn n p b q = turn n a p b + turn n a b q - turn n a p q := by
    linarith [turn_add_turn n a p b q]
  have hvec : turn n a b q • (p - a) + turn n a p b • (q - a) = turn n a p q • (b - a) := h
  rw [hsum]
  calc turn n a b q • p + turn n a p b • q
      = turn n a b q • (p - a) + turn n a p b • (q - a)
        + (turn n a p b + turn n a b q) • a := by module
    _ = turn n a p q • (b - a) + (turn n a p b + turn n a b q) • a := by rw [hvec]
    _ = (turn n a p b + turn n a b q - turn n a p q) • a + turn n a p q • b := by module

/-- The diagonals of four points in order meet, unless the points are on one
line. -/
theorem exists_mem_diagonals {n a p b q : Vec3 ℝ} (hn : n ≠ 0) (hp : n.dot p = n.dot a)
    (hb : n.dot b = n.dot a) (hq : n.dot q = n.dot a) (hapq : 0 ≤ turn n a p q)
    (hpbq : 0 ≤ turn n p b q) (habq : 0 ≤ turn n a b q) (hapb : 0 < turn n a p b) :
    ∃ y ∈ segment ℝ a b, y ∈ segment ℝ p q := by
  have hsum := turn_add_turn n a p b q
  have hpos : 0 < turn n a p b + turn n a b q := by linarith
  have hpos' : 0 < turn n p b q + turn n a p q := by linarith
  refine ⟨(turn n a p b + turn n a b q)⁻¹ • (turn n p b q • a + turn n a p q • b), ?_, ?_⟩
  · refine ⟨_, _, div_nonneg hpbq hpos'.le, div_nonneg hapq hpos'.le, ?_, ?_⟩
    · rw [← add_div, div_self hpos'.ne']
    · rw [smul_add, smul_smul, smul_smul, div_eq_inv_mul, div_eq_inv_mul, hsum,
        add_comm (turn n p b q)]
  · rw [← turn_smul_add_turn_smul hn hp hb hq]
    refine ⟨_, _, div_nonneg habq hpos.le, div_nonneg hapb.le hpos.le, ?_, ?_⟩
    · rw [← add_div, add_comm (turn n a b q), div_self hpos.ne']
    · rw [smul_add, smul_smul, smul_smul, div_eq_inv_mul, div_eq_inv_mul]

/-- A point on the line through two others, and between them along `m`, is on the
segment that they bound. -/
theorem mem_segment_of_turn_eq_zero {n m a p b : Vec3 ℝ} (hn : n ≠ 0)
    (hp : n.dot p = n.dot a) (hb : n.dot b = n.dot a) (h : turn n a p b = 0)
    (hap : m.dot p ≤ m.dot a) (hpb : m.dot b ≤ m.dot p) (hab : m.dot b < m.dot a) :
    p ∈ segment ℝ a b := by
  have hcross : (p - a).cross (b - a) = 0 :=
    cross_eq_zero_of_level hn (by simp [hp]) (by simp [hb]) h
  have hratio := smul_eq_smul_of_cross_eq_zero m hcross
  have hne : m.dot (b - a) ≠ 0 := by
    rw [dot_sub]
    exact (sub_neg.mpr hab).ne
  rw [segment_eq_image_lineMap]
  refine ⟨m.dot (p - a) / m.dot (b - a), ⟨?_, ?_⟩, ?_⟩
  · rw [dot_sub, dot_sub]
    exact div_nonneg_of_nonpos (by linarith) (by linarith)
  · rw [dot_sub, dot_sub, div_le_one_of_neg (by linarith)]
    linarith
  · rw [AffineMap.lineMap_apply_module', div_eq_inv_mul, mul_smul, ← hratio, smul_smul,
      inv_mul_cancel₀ hne, one_smul]
    exact sub_add_cancel p a

end Solids.Vec3
