import Solids.Proofs.Halves
import Solids.Proofs.Opposite
/-!
# Solids.Proofs.Flip

**Cutting what is turned over.** A plane that is turned over cuts the same pieces, and
a polygon that is turned over is cut into pieces that are turned over.

A polygon that is turned over begins its outline elsewhere once it is cut, so the
pieces are compared by `Polygon.IsOpposite`, which does not say where an outline
begins.
-/

namespace Solids

namespace Plane

variable {eps : ℝ} {p : Plane ℝ} {q r : Polygon ℝ}

/-! ### Planes turned over -/

theorem sideOfPolygon_flip (heps : 0 ≤ eps) (q : Polygon ℝ) :
    p.flip.sideOfPolygon eps q = (p.sideOfPolygon eps q).flip :=
  Scalar.hasOpposites_real.sideOfPolygon_flip (by linarith) q

theorem part_flip (heps : Scalar.epsilon ≤ eps) (away : Side) (l : List (Vertex ℝ)) :
    p.flip.part eps away l = p.part eps away.flip l := by
  rw [← partWithout_eq_part, ← partWithout_eq_part]
  exact Scalar.hasOpposites_real.partWithout_flip (Scalar.epsilon_pos.trans_le heps) away l

theorem split_flip (heps : Scalar.epsilon ≤ eps) (h : p.sideOfPolygon eps q ≠ .on) :
    p.flip.split eps q = { front := (p.split eps q).back, back := (p.split eps q).front } := by
  rw [(Scalar.hasOpposites_real.split_flip_iff (Scalar.epsilon_pos.trans_le heps) p q).mpr (.inl h)]
  cases hside : p.sideOfPolygon eps q with
  | on => exact absurd hside h
  | front =>
    rw [split_front hside]
    rfl
  | back =>
    rw [split_back hside]
    rfl
  | across =>
    rw [split_across heps hside]
    rfl

/-! ### Polygons turned over -/

/-- The side of a polygon depends on the positions of its corners alone, and not on
their order. -/
theorem sideOfPolygon_congr (h : ∀ x, x ∈ r.corners ↔ x ∈ q.corners) :
    p.sideOfPolygon eps r = p.sideOfPolygon eps q := by
  have hon : p.sideOfPolygon eps r = .on ↔ p.sideOfPolygon eps q = .on := by
    simp only [sideOfPolygon_eq_on, h]
  have hfront : (p.sideOfPolygon eps r = .on ∨ p.sideOfPolygon eps r = .front) ↔
      (p.sideOfPolygon eps q = .on ∨ p.sideOfPolygon eps q = .front) := by
    simp only [sideOfPolygon_mem_front, h]
  have hback : (p.sideOfPolygon eps r = .on ∨ p.sideOfPolygon eps r = .back) ↔
      (p.sideOfPolygon eps q = .on ∨ p.sideOfPolygon eps q = .back) := by
    simp only [sideOfPolygon_mem_back, h]
  cases hr : p.sideOfPolygon eps r <;> cases hq : p.sideOfPolygon eps q <;> simp_all

end Plane

/-- One polygon is the other turned over. Where the outline begins does not matter. -/
structure Polygon.IsOpposite (r q : Polygon ℝ) : Prop where
  /-- The plane is turned over. -/
  plane_eq : r.plane = q.plane.flip
  /-- The outline runs backwards. -/
  corners : r.corners.IsRotated q.corners.reverse

namespace Polygon.IsOpposite

variable {eps : ℝ} {p : Plane ℝ} {q r : Polygon ℝ}

theorem flip (q : Polygon ℝ) : q.flip.IsOpposite q :=
  ⟨rfl, by rw [flip_corners]⟩

theorem sideOfPolygon_eq (h : r.IsOpposite q) :
    p.sideOfPolygon eps r = p.sideOfPolygon eps q :=
  Plane.sideOfPolygon_congr fun x => by rw [h.corners.mem_iff, List.mem_reverse]

theorem piece (heps : Scalar.epsilon ≤ eps) (h : r.IsOpposite q) (away : Side) :
    (p.piece eps away r).IsOpposite (p.piece eps away q) where
  plane_eq := h.plane_eq
  corners := by
    simp only [Plane.piece, Polygon.corners, Plane.map_pos_part heps]
    exact (Plane.cutOutline_isRotated h.corners).trans (Plane.cutOutline_reverse _)

end Polygon.IsOpposite

end Solids
