import Solids.Proofs.Outline
/-!
# Solids.Proofs.Area

**Signed areas of outlines.**

The area of an outline is a sum over its edges, of the triangles that they span with a
fixed point. It does not depend on that point, nor on where the outline begins, and
changes sign when the outline is run backwards.

Main statements:

* `Outline.area_base`, `Outline.area_eq_of_isRotated`, `Outline.area_reverse`;
* `Vec3.dot_self_mul_triple` — what an area has to do with the volume between it and
  the origin.
-/

namespace Solids

/-! ### Triangles of one plane -/

namespace Vec3

theorem dot_self_smul_cross {n u v : Vec3 ℝ} (hu : n.dot u = 0) (hv : n.dot v = 0) :
    n.dot n • u.cross v = n.dot (u.cross v) • n := by
  have key : n.dot n • u.cross v
      = n.dot (u.cross v) • n - n.cross (n.dot v • u - n.dot u • v) := by
    ext <;> simp [dot, cross] <;> ring
  rw [key, hu, hv]
  ext <;> simp [cross]

/-- The volume that three points of a plane span with the origin is their area times
the height of the plane. -/
theorem dot_self_mul_triple {n a b c : Vec3 ℝ} {w : ℝ} (ha : n.dot a = w) (hb : n.dot b = w)
    (hc : n.dot c = w) : n.dot n * a.dot (b.cross c) = w * turn n a b c := by
  have hcross := dot_self_smul_cross (n := n) (u := b - a) (v := c - a) (by simp [ha, hb])
    (by simp [ha, hc])
  have htriple : a.dot (b.cross c) = a.dot ((b - a).cross (c - a)) := by
    simp only [dot, cross, sub_x, sub_y, sub_z]
    ring
  rw [htriple, ← dot_smul, hcross, dot_smul, dot_comm a n, ha, turn, mul_comm]

/-- Three points on a line span no area. -/
theorem turn_eq_zero_of_line {n m d a b c : Vec3 ℝ} (hn : n ≠ 0) (hnd : n.dot d = 0)
    (hmd : m.dot d ≠ 0) (hnb : n.dot b = n.dot a) (hnc : n.dot c = n.dot a)
    (hmb : m.dot b = m.dot a) (hmc : m.dot c = m.dot a) : turn n a b c = 0 := by
  have h := congrArg m.dot (smul_add_smul_of_level (u := b - a) (v := c - a) (w := d) hn
    (by simp [hnb]) (by simp [hnc]) hnd)
  simp only [dot_add, dot_smul, dot_sub, hmb, hmc, sub_self, mul_zero, zero_add] at h
  exact (mul_eq_zero.mp h).resolve_right hmd

theorem turn_add_of_mem_segment {n o a b x : Vec3 ℝ} (hx : x ∈ segment ℝ a b) :
    turn n o a x + turn n o x b = turn n o a b := by
  obtain ⟨s, t, -, -, hst, rfl⟩ := hx
  have hlast : turn n o a (s • a + t • b) = t * turn n o a b := by
    rw [turn_combo n o a a b hst, turn_self_right, mul_zero, zero_add]
  have hfirst : turn n o (s • a + t • b) b = s * turn n o a b := by
    rw [turn_swap n o b, turn_combo n o b a b hst, turn_self_right, turn_swap n o a b]
    ring
  rw [hlast, hfirst, ← add_mul, add_comm t, hst, one_mul]

end Vec3

namespace Outline

open Vec3

variable {α : Type} {n o o' : Vec3 ℝ} {l r : List (Vec3 ℝ)}

/-! ### Outlines begun elsewhere and run backwards -/

theorem exists_append_of_isRotated {l r : List α} (h : l.IsRotated r) :
    ∃ l₁ l₂, l = l₁ ++ l₂ ∧ r = l₂ ++ l₁ := by
  obtain ⟨k, hk, rfl⟩ := List.isRotated_iff_mod.mp h
  exact ⟨l.take k, l.drop k, (List.take_append_drop k l).symm, List.rotate_eq_drop_append_take hk⟩

theorem edges_perm_of_isRotated {l r : List α} (h : l.IsRotated r) :
    (Plane.edges l).Perm (Plane.edges r) := by
  obtain ⟨l₁, l₂, rfl, rfl⟩ := exists_append_of_isRotated h
  exact edges_append_comm l₁ l₂

theorem isRotated_cons_reverse (u : α) (mid : List α) :
    (u :: mid).reverse.IsRotated (u :: mid.reverse) := by
  rw [List.reverse_cons]
  exact List.isRotated_append

/-! ### Areas -/

/-- What the way from `u` through `mid` to `z` sweeps, seen from `o`. -/
noncomputable def sweep (n o u : Vec3 ℝ) (mid : List (Vec3 ℝ)) (z : Vec3 ℝ) : ℝ :=
  ((walk u mid z).map fun e => turn n o e.1 e.2).sum

@[simp] theorem sweep_nil (n o u z : Vec3 ℝ) : sweep n o u [] z = turn n o u z := by
  simp [sweep]

@[simp] theorem sweep_cons (n o u v z : Vec3 ℝ) (mid : List (Vec3 ℝ)) :
    sweep n o u (v :: mid) z = turn n o u v + sweep n o v mid z := by
  simp [sweep]

theorem sweep_append (n o u v z : Vec3 ℝ) (mid mid' : List (Vec3 ℝ)) :
    sweep n o u (mid ++ v :: mid') z = sweep n o u mid v + sweep n o v mid' z := by
  simp [sweep, walk_append]

theorem sweep_reverse (n o u z : Vec3 ℝ) (mid : List (Vec3 ℝ)) :
    sweep n o z mid.reverse u = -sweep n o u mid z := by
  induction mid generalizing u with
  | nil => simp [turn_swap n o u z]
  | cons v mid ih =>
    rw [List.reverse_cons, sweep_append, ih, sweep_cons, sweep_nil, turn_swap n o u v]
    ring

/-- Seen from another point, a way sweeps more by what depends on its ends alone. -/
theorem sweep_base (n o o' u z : Vec3 ℝ) (mid : List (Vec3 ℝ)) :
    sweep n o u mid z + n.dot ((o - o').cross z)
      = sweep n o' u mid z + n.dot ((o - o').cross u) := by
  have hturn : ∀ a b, turn n o a b + n.dot ((o - o').cross b)
      = turn n o' a b + n.dot ((o - o').cross a) := by
    intro a b
    simp only [turn, dot, cross, sub_x, sub_y, sub_z]
    ring
  induction mid generalizing u with
  | nil => simpa using hturn u z
  | cons v mid ih =>
    rw [sweep_cons, sweep_cons]
    linarith [hturn u v, ih v]

/-- The area of an outline, counted twice and positive if it runs counter-clockwise as
seen against `n`, from the triangles that its edges span with `o`. -/
noncomputable def area (n o : Vec3 ℝ) (l : List (Vec3 ℝ)) : ℝ :=
  ((Plane.edges l).map fun e => turn n o e.1 e.2).sum

theorem area_cons (n o u : Vec3 ℝ) (mid : List (Vec3 ℝ)) :
    area n o (u :: mid) = sweep n o u mid u := rfl

/-- The area does not depend on the point that the triangles have in common. -/
theorem area_base (n o o' : Vec3 ℝ) (l : List (Vec3 ℝ)) : area n o l = area n o' l := by
  cases l with
  | nil => rfl
  | cons u mid => exact add_right_cancel (sweep_base n o o' u u mid)

theorem area_eq_of_isRotated (n o : Vec3 ℝ) (h : l.IsRotated r) : area n o l = area n o r :=
  ((edges_perm_of_isRotated h).map _).sum_eq

@[simp] theorem area_reverse (n o : Vec3 ℝ) (l : List (Vec3 ℝ)) :
    area n o l.reverse = -area n o l := by
  cases l with
  | nil => simp [area, Plane.edges]
  | cons u mid =>
    rw [area_eq_of_isRotated n o (isRotated_cons_reverse u mid), area_cons, area_cons,
      sweep_reverse]

theorem area_neg (n o : Vec3 ℝ) (l : List (Vec3 ℝ)) : area (-n) o l = -area n o l := by
  unfold area
  simp only [turn_neg]
  rw [List.sum_neg, List.map_map]
  rfl

/-- An outline on a line has no area. -/
theorem area_eq_zero_of_line {m d : Vec3 ℝ} {c c' : ℝ} (hn : n ≠ 0) (hnd : n.dot d = 0)
    (hmd : m.dot d ≠ 0) (hl : ∀ x ∈ l, n.dot x = c ∧ m.dot x = c') (o : Vec3 ℝ) :
    area n o l = 0 := by
  cases l with
  | nil => rfl
  | cons u mid =>
    obtain ⟨hnu, hmu⟩ := hl u (by simp)
    rw [area_base n o u]
    refine List.sum_eq_zero fun a ha => ?_
    obtain ⟨e, he, rfl⟩ := List.mem_map.mp ha
    obtain ⟨hn₁, hm₁⟩ := hl _ (mem_of_mem_edges he).1
    obtain ⟨hn₂, hm₂⟩ := hl _ (mem_of_mem_edges he).2
    exact turn_eq_zero_of_line hn hnd hmd (hn₁.trans hnu.symm) (hn₂.trans hnu.symm)
      (hm₁.trans hmu.symm) (hm₂.trans hmu.symm)

end Outline

end Solids
