import Solids.Proofs.Exact
import Solids.BoundingBox
/-!
# Solids.Proofs.Bounds

**Bounding boxes.** The box of some points holds all of them, and it is the least box
that does.

Main statements:

* `BoundingBox.near_ofPoints`, `BoundingBox.least_ofPoints`;
* `BoundingBox.ofPoints_eq` — a box that holds the points, with both of its corners
  among them, is their box.
-/

namespace Solids.BoundingBox

variable {eps : ℝ} {b : BoundingBox ℝ} {x : Vec3 ℝ} {points : List (Vec3 ℝ)}

/-- The point is at most `eps` away from the box along every axis. -/
structure Near (eps : ℝ) (b : BoundingBox ℝ) (x : Vec3 ℝ) : Prop where
  /-- Along the first axis. -/
  x_mem : b.lower.x - eps ≤ x.x ∧ x.x ≤ b.upper.x + eps
  /-- Along the second axis. -/
  y_mem : b.lower.y - eps ≤ x.y ∧ x.y ≤ b.upper.y + eps
  /-- Along the third axis. -/
  z_mem : b.lower.z - eps ≤ x.z ∧ x.z ≤ b.upper.z + eps

theorem Near.mono {eps' : ℝ} (h : b.Near eps x) (hle : eps ≤ eps') : b.Near eps' x := by
  obtain ⟨⟨hx, hx'⟩, ⟨hy, hy'⟩, ⟨hz, hz'⟩⟩ := h
  constructor <;> constructor <;> linarith

theorem convex_near (eps : ℝ) (b : BoundingBox ℝ) : Convex ℝ {x | b.Near eps x} := by
  have hslab : ∀ {lo hi u v s t : ℝ}, 0 ≤ s → 0 ≤ t → s + t = 1 → lo ≤ u ∧ u ≤ hi →
      lo ≤ v ∧ v ≤ hi → lo ≤ s * u + t * v ∧ s * u + t * v ≤ hi := by
    intro lo hi u v s t hs ht hst hu hv
    obtain rfl : t = 1 - s := by linarith
    exact ⟨by nlinarith [hu.1, hv.1], by nlinarith [hu.2, hv.2]⟩
  intro u hu v hv s t hs ht hst
  refine ⟨?_, ?_, ?_⟩
  · simpa using hslab hs ht hst hu.x_mem hv.x_mem
  · simpa using hslab hs ht hst hu.y_mem hv.y_mem
  · simpa using hslab hs ht hst hu.z_mem hv.z_mem

/-! ### Growing -/

/-- Growing a box to hold one more point loses none. -/
theorem Near.enclose (h : b.Near 0 x) (p : Vec3 ℝ) : (b.enclose p).Near 0 x := by
  obtain ⟨⟨hx, hx'⟩, ⟨hy, hy'⟩, ⟨hz, hz'⟩⟩ := h
  constructor <;> simp only [BoundingBox.enclose, Scalar.smaller_real, Scalar.larger_real] <;>
    constructor <;> simp_all

theorem near_enclose_self (b : BoundingBox ℝ) (x : Vec3 ℝ) : (b.enclose x).Near 0 x := by
  constructor <;> simp [enclose]

theorem near_foldl_enclose (h : b.Near 0 x ∨ x ∈ points) : (points.foldl enclose b).Near 0 x := by
  induction points generalizing b with
  | nil => exact h.resolve_right (by simp)
  | cons p l ih =>
    refine ih ?_
    rcases h with h | h
    · exact .inl (h.enclose p)
    · rcases List.mem_cons.mp h with rfl | h
      · exact .inl (near_enclose_self b x)
      · exact .inr h

/-- The box of some points holds them. -/
theorem near_ofPoints (h : x ∈ points) : (ofPoints points).Near 0 x := by
  cases points with
  | nil => cases h
  | cons p l =>
    rw [ofPoints_cons]
    refine near_foldl_enclose ?_
    rcases List.mem_cons.mp h with rfl | h
    · refine .inl ?_
      show (BoundingBox.mk x x).Near 0 x
      constructor <;> simp
    · exact .inr h

/-- What holds the corners of a box. -/
theorem near_corners_enclose {c : BoundingBox ℝ} (hlower : b.Near 0 c.lower)
    (hupper : b.Near 0 c.upper) (hx : b.Near 0 x) :
    b.Near 0 (c.enclose x).lower ∧ b.Near 0 (c.enclose x).upper := by
  obtain ⟨⟨h₁, h₁'⟩, ⟨h₂, h₂'⟩, ⟨h₃, h₃'⟩⟩ := hlower
  obtain ⟨⟨k₁, k₁'⟩, ⟨k₂, k₂'⟩, ⟨k₃, k₃'⟩⟩ := hupper
  obtain ⟨⟨l₁, l₁'⟩, ⟨l₂, l₂'⟩, ⟨l₃, l₃'⟩⟩ := hx
  constructor <;> constructor <;>
    simp only [BoundingBox.enclose, Scalar.smaller_real, Scalar.larger_real] <;>
    constructor <;> simp_all

/-- Every box that holds some points holds the corners of their box. -/
theorem least_ofPoints (hne : points ≠ []) (h : ∀ x ∈ points, b.Near 0 x) :
    b.Near 0 (ofPoints points).lower ∧ b.Near 0 (ofPoints points).upper := by
  have hfoldl : ∀ (l : List (Vec3 ℝ)) (c : BoundingBox ℝ), (∀ x ∈ l, b.Near 0 x) →
      b.Near 0 c.lower ∧ b.Near 0 c.upper →
      b.Near 0 (l.foldl enclose c).lower ∧ b.Near 0 (l.foldl enclose c).upper := by
    intro l
    induction l with
    | nil => exact fun c _ hc => hc
    | cons p l ih =>
      intro c hl hc
      rw [List.forall_mem_cons] at hl
      exact ih _ hl.2 (near_corners_enclose hc.1 hc.2 hl.1)
  obtain ⟨p, l, rfl⟩ := List.exists_cons_of_ne_nil hne
  rw [List.forall_mem_cons] at h
  rw [ofPoints_cons]
  exact hfoldl l (around p) h.2 ⟨h.1, h.1⟩

/-- A box that holds some points, and has both of its corners among them, is theirs. -/
theorem ofPoints_eq (h : ∀ x ∈ points, b.Near 0 x) (hlower : b.lower ∈ points)
    (hupper : b.upper ∈ points) : ofPoints points = b := by
  obtain ⟨hle, hle'⟩ := least_ofPoints (List.ne_nil_of_mem hlower) h
  have hge := near_ofPoints hlower
  have hge' := near_ofPoints hupper
  obtain ⟨lower, upper⟩ := b
  cases hbox : ofPoints points with
  | mk lo hi =>
    rw [hbox] at hle hle' hge hge'
    obtain ⟨⟨a₁, -⟩, ⟨a₂, -⟩, ⟨a₃, -⟩⟩ := hle
    obtain ⟨⟨-, b₁⟩, ⟨-, b₂⟩, ⟨-, b₃⟩⟩ := hle'
    obtain ⟨⟨c₁, -⟩, ⟨c₂, -⟩, ⟨c₃, -⟩⟩ := hge
    obtain ⟨⟨-, d₁⟩, ⟨-, d₂⟩, ⟨-, d₃⟩⟩ := hge'
    simp only [sub_zero, add_zero] at *
    congr 1 <;> ext <;> apply le_antisymm <;> assumption

end Solids.BoundingBox
