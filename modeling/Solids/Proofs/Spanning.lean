import Solids.Proofs.Cut
/-!
# Solids.Proofs.Spanning

**A polygon that spans a plane is always cut in two**, whatever its shape.

A cut has two guards: an edge gets a crossing only if it is long enough along the normal, and the
corners of a part become a piece only if there are three of them. With corners beyond the tolerance
on both sides neither guard ever leaves anything out. Any other polygon is handed on as it is.

Main definitions:

* `Plane.Spans` — a polygon has corners beyond the tolerance on both sides of the plane;
* `Plane.Crosses` and `Plane.cutVertex` — an edge from one side to the other, and the corner it gets
  where it meets the plane;
* `Plane.IsHalf` — what either of the two pieces is.

Main statement: `Plane.split_of_spans_or_not`.
-/

namespace Solids.Plane

open Outline

variable {eps : ℝ} {p : Plane ℝ} {q : Polygon ℝ} {away : Side} {e : Vertex ℝ × Vertex ℝ}

/-! ### Edges from one side to the other -/

/-- The edge has one end in front of the plane and one behind it, both further than the
tolerance. -/
def Crosses (eps : ℝ) (p : Plane ℝ) (e : Vertex ℝ × Vertex ℝ) : Prop :=
  (eps < p.signedDistance e.1.pos ∧ p.signedDistance e.2.pos < -eps) ∨
    (p.signedDistance e.1.pos < -eps ∧ eps < p.signedDistance e.2.pos)

/-- How far along the edge it meets the plane, from zero at its first end to one at its second. -/
noncomputable def ratio (p : Plane ℝ) (e : Vertex ℝ × Vertex ℝ) : ℝ :=
  p.signedDistance e.1.pos / (p.signedDistance e.1.pos - p.signedDistance e.2.pos)

/-- The corner that the edge gets where it meets the plane. -/
noncomputable def cutVertex (p : Plane ℝ) (e : Vertex ℝ × Vertex ℝ) : Vertex ℝ :=
  e.1.interpolate e.2 (p.ratio e)

open scoped Classical in
/-- The corners that the edge gets: one if it crosses the plane. -/
noncomputable def cutVertices (eps : ℝ) (p : Plane ℝ) (e : Vertex ℝ × Vertex ℝ) :
    List (Vertex ℝ) := if p.Crosses eps e then [p.cutVertex e] else []

theorem crosses_iff (heps : 0 ≤ eps) : p.Crosses eps e ↔
    (p.sideOf eps e.1.pos).join (p.sideOf eps e.2.pos) = .across := by
  refine ⟨fun h => ?_, sides_of_join_eq_across heps⟩
  rcases h with ⟨hfront, hback⟩ | ⟨hback, hfront⟩
  · rw [(sideOf_eq_front heps).mpr hfront, sideOf_eq_back.mpr hback]
    rfl
  · rw [(sideOf_eq_front heps).mpr hfront, sideOf_eq_back.mpr hback]
    rfl

/-- The edge meets the plane strictly between its ends. -/
theorem ratio_bounds (heps : 0 ≤ eps) (h : p.Crosses eps e) : 0 < p.ratio e ∧ p.ratio e < 1 := by
  rcases h with ⟨hfront, hback⟩ | ⟨hback, hfront⟩
  · have hpos : 0 < p.signedDistance e.1.pos - p.signedDistance e.2.pos := by linarith
    exact ⟨div_pos (by linarith) hpos, (div_lt_one hpos).mpr (by linarith)⟩
  · have hneg : p.signedDistance e.1.pos - p.signedDistance e.2.pos < 0 := by linarith
    exact ⟨div_pos_of_neg_of_neg (by linarith) hneg, (div_lt_one_of_neg hneg).mpr (by linarith)⟩

/-- The corner that it gets there is exactly on the plane. -/
theorem signedDistance_cutVertex (heps : 0 ≤ eps) (h : p.Crosses eps e) :
    p.signedDistance (p.cutVertex e).pos = 0 := by
  have hne : p.signedDistance e.1.pos - p.signedDistance e.2.pos ≠ 0 :=
    sub_ne_zero.mpr (signedDistance_ne_of_join_eq_across heps ((crosses_iff heps).mp h))
  rw [cutVertex, signedDistance_interpolate, ratio]
  field_simp
  ring

/-! ### Walking round the outline -/

/-- The outline without the corners on the side `away`, and with a corner put in on every edge that
crosses the plane. -/
noncomputable def weave (eps : ℝ) (p : Plane ℝ) (away : Side) (corners : List (Vertex ℝ)) :
    List (Vertex ℝ) :=
  (edges corners).flatMap fun e =>
    (if p.sideOf eps e.1.pos = away then [] else [e.1]) ++ p.cutVertices eps e

/-- No edge that crosses the plane is too short for a corner of its own. -/
theorem part_eq_weave (heps : Scalar.epsilon ≤ eps) (corners : List (Vertex ℝ)) :
    p.part eps away corners = p.weave eps away corners := by
  refine List.flatMap_congr fun e _ => ?_
  have hcrosses := crosses_iff (p := p) (e := e) (Scalar.epsilon_pos.le.trans heps)
  have hcrossing : (p.crossing? (p.sided eps e.1) (p.sided eps e.2)).toList
      = p.cutVertices eps e := by
    unfold cutVertices
    split_ifs with h
    · rw [crossing?_eq_some heps (hcrosses.mp h)]
      rfl
    · rw [crossing?_eq_none (hcrosses.not.mp h)]
      rfl
  rw [emit, hcrossing]

/-- The corners that are not on the side `away` keep their order. -/
theorem filter_sublist_weave (corners : List (Vertex ℝ)) :
    (corners.filter fun v => p.sideOf eps v.pos ≠ away).Sublist (p.weave eps away corners) := by
  have hwalk : ∀ (u : Vertex ℝ) (mid : List (Vertex ℝ)) (z : Vertex ℝ),
      ((u :: mid).filter fun v => p.sideOf eps v.pos ≠ away).Sublist
        ((walk u mid z).flatMap fun e =>
          (if p.sideOf eps e.1.pos = away then [] else [e.1]) ++ p.cutVertices eps e) := by
    intro u mid z
    induction mid generalizing u with
    | nil => by_cases hu : p.sideOf eps u.pos = away <;> simp [hu]
    | cons v mid ih =>
      have hrest := (ih v).trans (List.sublist_append_right (p.cutVertices eps (u, v)) _)
      rw [walk_cons, List.flatMap_cons, List.filter_cons]
      by_cases hu : p.sideOf eps u.pos = away <;> simpa [hu] using hrest
  cases corners with
  | nil => exact List.Sublist.refl _
  | cons u mid => exact hwalk u mid u

/-- No corner of a part is on the side that it leaves out. -/
theorem sideOf_ne_of_mem_part (heps : Scalar.epsilon ≤ eps) (haway : away ≠ .on)
    {corners : List (Vertex ℝ)} {v : Vertex ℝ} (h : v ∈ p.part eps away corners) :
    p.sideOf eps v.pos ≠ away := by
  obtain ⟨e, -, hv⟩ := List.mem_flatMap.mp h
  rcases of_mem_emit heps hv with ⟨-, hside⟩ | ⟨-, hzero⟩
  · exact hside
  · have hon : p.sideOf eps v.pos = .on := by
      rw [sideOf_eq_on, hzero, abs_zero]
      exact Scalar.epsilon_pos.le.trans heps
    rw [hon]
    exact haway.symm

/-! ### The two pieces -/

/-- The polygon has corners in front of the plane and behind it, further than the tolerance. -/
def Spans (eps : ℝ) (p : Plane ℝ) (q : Polygon ℝ) : Prop :=
  (∃ v ∈ q.vertices, eps < p.signedDistance v.pos) ∧
    ∃ v ∈ q.vertices, p.signedDistance v.pos < -eps

theorem spans_iff (heps : 0 ≤ eps) : p.Spans eps q ↔ p.sideOfPolygon eps q = .across := by
  refine Iff.trans ?_ sideOfAll_eq_across.symm
  simp only [Spans, sideOf_eq_front heps, sideOf_eq_back]

/-- What the piece `r` that leaves out the side `away` has to do with the polygon it is cut from. -/
structure IsHalf (eps : ℝ) (p : Plane ℝ) (away : Side) (q r : Polygon ℝ) : Prop where
  /-- It keeps the plane. -/
  plane_eq : r.plane = q.plane
  /-- It has enough corners for a polygon. -/
  three_le : 3 ≤ r.vertices.length
  /-- Its corners, in order, are those of the outline that are not on the side `away` and one for
  every edge that crosses the plane, between the ends of that edge. -/
  vertices_eq : r.vertices = p.weave eps away q.vertices
  /-- The corners of the polygon that are not on the side `away` are in it, in their order. -/
  kept : (q.vertices.filter fun v => p.sideOf eps v.pos ≠ away).Sublist r.vertices
  /-- No other corner of the polygon is. -/
  mem_iff : ∀ v ∈ q.vertices, v ∈ r.vertices ↔ p.sideOf eps v.pos ≠ away
  /-- Every edge that crosses the plane has a corner in it, strictly between the ends of the edge
  and exactly on the plane. -/
  cut : ∀ e ∈ edges q.vertices, p.Crosses eps e → p.cutVertex e ∈ r.vertices ∧
    0 < p.ratio e ∧ p.ratio e < 1 ∧ p.signedDistance (p.cutVertex e).pos = 0

theorem isHalf_piece (heps : Scalar.epsilon ≤ eps) (h : p.sideOfPolygon eps q = .across)
    (haway : away ≠ .on) : p.IsHalf eps away q (p.piece eps away q) where
  plane_eq := rfl
  three_le := three_le_length_part heps h haway
  vertices_eq := part_eq_weave heps q.vertices
  kept := by
    show List.Sublist _ (p.part eps away q.vertices)
    rw [part_eq_weave heps]
    exact filter_sublist_weave q.vertices
  mem_iff v hv := ⟨sideOf_ne_of_mem_part heps haway, mem_part_of_mem hv⟩
  cut e he hcrosses := by
    have hnonneg := Scalar.epsilon_pos.le.trans heps
    have hmem : p.cutVertex e ∈ p.part eps away q.vertices := by
      rw [part_eq_weave heps]
      refine List.mem_flatMap.mpr ⟨e, he, List.mem_append_right _ ?_⟩
      rw [cutVertices, if_pos hcrosses]
      exact List.mem_singleton_self _
    obtain ⟨hpos, hlt⟩ := ratio_bounds hnonneg hcrosses
    exact ⟨hmem, hpos, hlt, signedDistance_cutVertex hnonneg hcrosses⟩

/-- **A plane cuts what spans it in two, and nothing else.** A polygon with corners beyond the
tolerance on both sides of the plane, convex or not, is cut into one piece in front and one behind,
which share the corners on the edges that cross. Every other polygon is handed on as it is: on the
plane, by the way it faces, if no corner is beyond the tolerance, and otherwise on the side on which
some corner is. -/
theorem split_of_spans_or_not (heps : Scalar.epsilon ≤ eps) (p : Plane ℝ) (q : Polygon ℝ) :
    (p.Spans eps q → ∃ front back, p.split eps q = { front := [front], back := [back] } ∧
      p.IsHalf eps .back q front ∧ p.IsHalf eps .front q back ∧
      (∀ v ∈ front.vertices, -eps ≤ p.signedDistance v.pos) ∧
      ∀ v ∈ back.vertices, p.signedDistance v.pos ≤ eps) ∧
    (¬ p.Spans eps q →
      ((∀ v ∈ q.vertices, |p.signedDistance v.pos| ≤ eps) ∧
        ((0 < p.normal.dot q.plane.normal ∧ p.split eps q = { onFront := [q] }) ∨
          (p.normal.dot q.plane.normal ≤ 0 ∧ p.split eps q = { onBack := [q] }))) ∨
      ((∃ v ∈ q.vertices, eps < p.signedDistance v.pos) ∧ p.split eps q = { front := [q] }) ∨
      (∃ v ∈ q.vertices, p.signedDistance v.pos < -eps) ∧ p.split eps q = { back := [q] }) := by
  have hnonneg : 0 ≤ eps := Scalar.epsilon_pos.le.trans heps
  constructor
  · intro hspans
    have hacross := (spans_iff hnonneg).mp hspans
    exact ⟨p.piece eps .back q, p.piece eps .front q, split_across heps hacross,
      isHalf_piece heps hacross (by simp), isHalf_piece heps hacross (by simp),
      fun v hv => le_of_mem_part_back heps hv, fun v hv => le_of_mem_part_front heps hv⟩
  · intro hspans
    cases hside : p.sideOfPolygon eps q with
    | across => exact absurd ((spans_iff hnonneg).mpr hside) hspans
    | on =>
      refine .inl ⟨fun v hv => sideOf_eq_on.mp (sideOfAll_eq_on.mp hside v hv), ?_⟩
      rw [split_on hside]
      split_ifs with hfacing
      · exact .inl ⟨hfacing, rfl⟩
      · exact .inr ⟨not_lt.mp hfacing, rfl⟩
    | front =>
      obtain ⟨-, x, hx, hlt⟩ := sideOfPolygon_eq_front.mp hside
      obtain ⟨v, hv, rfl⟩ := List.mem_map.mp hx
      exact .inr (.inl ⟨⟨v, hv, hlt⟩, split_front hside⟩)
    | back =>
      obtain ⟨-, x, hx, hlt⟩ := (sideOfPolygon_eq_back hnonneg).mp hside
      obtain ⟨v, hv, rfl⟩ := List.mem_map.mp hx
      exact .inr (.inr ⟨⟨v, hv, hlt⟩, split_back hside⟩)

/-- An upright crown with two points, between which it goes down to the middle. -/
noncomputable def crown : Polygon ℝ :=
  ⟨[⟨⟨-1, 0, -1⟩, 0⟩, ⟨⟨1, 0, -1⟩, 0⟩, ⟨⟨1, 0, 1⟩, 0⟩, ⟨⟨0, 0, 0⟩, 0⟩, ⟨⟨-1, 0, 1⟩, 0⟩],
    ⟨⟨0, -1, 0⟩, 0⟩⟩

/-- The two points of the crown come off as one polygon. Four edges cross the plane. -/
theorem split_of_spans_or_not_crown : ∃ p : Plane ℝ, p = ⟨⟨0, 0, 1⟩, 1 / 2⟩ ∧
    Scalar.epsilon ≤ (1 / 4 : ℝ) ∧ p.Spans (1 / 4) crown ∧
    ∃ front back, p.split (1 / 4) crown = { front := [front], back := [back] } ∧
      p.IsHalf (1 / 4) .back crown front ∧ p.IsHalf (1 / 4) .front crown back ∧
      (∀ v ∈ front.vertices, -(1 / 4) ≤ p.signedDistance v.pos) ∧
      ∀ v ∈ back.vertices, p.signedDistance v.pos ≤ 1 / 4 := by
  have heps : Scalar.epsilon ≤ (1 / 4 : ℝ) := by
    rw [Scalar.epsilon_real]
    norm_num
  have hspans : (⟨⟨0, 0, 1⟩, 1 / 2⟩ : Plane ℝ).Spans (1 / 4) crown := by
    norm_num [Spans, crown, signedDistance, Vec3.dot]
  exact ⟨_, rfl, heps, hspans, (split_of_spans_or_not heps _ crown).1 hspans⟩

end Solids.Plane
