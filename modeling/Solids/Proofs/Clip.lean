import Solids.Proofs.Cut
/-!
# Solids.Proofs.Clip

**The solid of a tree**, and what clipping and inverting do to it.

Main definitions:

* `Tree.Inside` — the points of the solid, by the way down from the root;
* `Tree.planes` — the planes of all nodes. A point is clear of a tree when it is
  further than the tolerance from each of them;
* `Tree.Grown` — every node has a plane. Only the tree that holds nothing is not.

Main statements:

* `Tree.mem_cover_clip` — clipping leaves, of the points clear of the tree, exactly
  those that are outside its solid;
* `Tree.inside_invert` — inverting exchanges inside and outside.
-/

namespace Solids

/-! ### Cutting lists of polygons -/

namespace Plane

section Members

variable {K : Type} [Scalar K] {eps : K} {p : Plane K} {polygons : List (Polygon K)}
  {r : Polygon K}

theorem mem_inFront : r ∈ Pieces.inFront (p.splitAll eps polygons) ↔
    ∃ q ∈ polygons, r ∈ (p.split eps q).onFront ++ (p.split eps q).front := by
  simp [Pieces.inFront, splitAll, List.mem_flatMap]

theorem mem_behind : r ∈ Pieces.behind (p.splitAll eps polygons) ↔
    ∃ q ∈ polygons, r ∈ (p.split eps q).onBack ++ (p.split eps q).back := by
  simp [Pieces.behind, splitAll, List.mem_flatMap]

theorem mem_onPlane : r ∈ Pieces.onPlane (p.splitAll eps polygons) ↔
    ∃ q ∈ polygons, r ∈ (p.split eps q).onFront ++ (p.split eps q).onBack := by
  simp [Pieces.onPlane, splitAll, List.mem_flatMap]

theorem mem_front : r ∈ (p.splitAll eps polygons).flatMap Pieces.front ↔
    ∃ q ∈ polygons, r ∈ (p.split eps q).front := by
  simp [splitAll, List.mem_flatMap]

theorem mem_back : r ∈ (p.splitAll eps polygons).flatMap Pieces.back ↔
    ∃ q ∈ polygons, r ∈ (p.split eps q).back := by
  simp [splitAll, List.mem_flatMap]

end Members

variable {eps : ℝ} {p : Plane ℝ} {polygons : List (Polygon ℝ)} {r : Polygon ℝ} {x : Vec3 ℝ}

theorem exists_pieceOf_inFront (heps : Scalar.epsilon ≤ eps)
    (h : r ∈ Pieces.inFront (p.splitAll eps polygons)) : ∃ q ∈ polygons, r.PieceOf q := by
  obtain ⟨q, hq, hr⟩ := mem_inFront.mp h
  exact ⟨q, hq, (isSplit_split heps p q).pieceOf r (by simp_all; tauto)⟩

theorem exists_pieceOf_behind (heps : Scalar.epsilon ≤ eps)
    (h : r ∈ Pieces.behind (p.splitAll eps polygons)) : ∃ q ∈ polygons, r.PieceOf q := by
  obtain ⟨q, hq, hr⟩ := mem_behind.mp h
  exact ⟨q, hq, (isSplit_split heps p q).pieceOf r (by simp_all; tauto)⟩

/-- What goes to the front is not far behind the plane. -/
theorem le_of_mem_cover_inFront (heps : Scalar.epsilon ≤ eps)
    (h : x ∈ cover (Pieces.inFront (p.splitAll eps polygons))) : -eps ≤ p.signedDistance x := by
  obtain ⟨r, hr, hx⟩ := h
  obtain ⟨q, -, hr⟩ := mem_inFront.mp hr
  have hsplit := isSplit_split heps p q
  refine Polygon.region_subset (p.convex_ge (-eps)) (fun y hy => ?_) hx
  rcases List.mem_append.mp hr with hr | hr
  · exact (abs_le.mp (hsplit.near r (List.mem_append_left _ hr) y hy)).1
  · exact hsplit.ahead r hr y hy

/-- What goes to the back is not far in front of the plane. -/
theorem le_of_mem_cover_behind (heps : Scalar.epsilon ≤ eps)
    (h : x ∈ cover (Pieces.behind (p.splitAll eps polygons))) : p.signedDistance x ≤ eps := by
  obtain ⟨r, hr, hx⟩ := h
  obtain ⟨q, -, hr⟩ := mem_behind.mp hr
  have hsplit := isSplit_split heps p q
  refine Polygon.region_subset (p.convex_le eps) (fun y hy => ?_) hx
  rcases List.mem_append.mp hr with hr | hr
  · exact (abs_le.mp (hsplit.near r (List.mem_append_right _ hr) y hy)).2
  · exact hsplit.behind r hr y hy

/-- What goes to the front and what goes to the back is all there is. -/
theorem cover_inFront_union_behind (heps : Scalar.epsilon ≤ eps)
    (hconvex : ∀ q ∈ polygons, q.IsConvex) :
    cover (Pieces.inFront (p.splitAll eps polygons))
      ∪ cover (Pieces.behind (p.splitAll eps polygons)) = cover polygons := by
  apply Set.Subset.antisymm
  · rintro x (⟨r, hr, hx⟩ | ⟨r, hr, hx⟩)
    · obtain ⟨q, hq, hrq⟩ := exists_pieceOf_inFront heps hr
      exact ⟨q, hq, hrq.region_subset hx⟩
    · obtain ⟨q, hq, hrq⟩ := exists_pieceOf_behind heps hr
      exact ⟨q, hq, hrq.region_subset hx⟩
  · rintro x ⟨q, hq, hx⟩
    obtain ⟨r, hr, hxr⟩ := (isSplit_split heps p q).covers (hconvex q hq) hx
    simp only [List.mem_append] at hr
    rcases hr with ((hr | hr) | hr) | hr
    · exact .inl ⟨r, mem_inFront.mpr ⟨q, hq, by simp [hr]⟩, hxr⟩
    · exact .inr ⟨r, mem_behind.mpr ⟨q, hq, by simp [hr]⟩, hxr⟩
    · exact .inl ⟨r, mem_inFront.mpr ⟨q, hq, by simp [hr]⟩, hxr⟩
    · exact .inr ⟨r, mem_behind.mpr ⟨q, hq, by simp [hr]⟩, hxr⟩

end Plane

/-! ### A triangle -/

namespace Polygon

/-- Three corners that do not turn right are convex. -/
theorem isConvex_three {a b c : Vertex ℝ} {n : Vec3 ℝ} {p : Plane ℝ} (hn : n ≠ 0)
    (hb : n.dot b.pos = n.dot a.pos) (hc : n.dot c.pos = n.dot a.pos)
    (hturn : 0 ≤ Vec3.turn n a.pos b.pos c.pos) : (Polygon.mk [a, b, c] p).IsConvex := by
  refine ⟨n, hn, ⟨?_, ?_⟩⟩
  · have hlevel : ∀ x ∈ [a.pos, b.pos, c.pos], n.dot x = n.dot a.pos := by simp [hb, hc]
    intro x hx y hy
    exact (hlevel x hx).trans (hlevel y hy).symm
  · intro x y z h
    obtain ⟨rfl, rfl, rfl⟩ : x = a.pos ∧ y = b.pos ∧ z = c.pos := by
      simpa [corners] using h.eq_of_length rfl
    exact hturn

/-- An upright triangle, most of it to the left of the origin and below. -/
noncomputable def gable : Polygon ℝ :=
  ⟨[⟨⟨-3, 0, -3⟩, 0⟩, ⟨⟨1, 0, -3⟩, 0⟩, ⟨⟨-3, 0, 1⟩, 0⟩], ⟨⟨0, -1, 0⟩, 0⟩⟩

theorem isConvex_gable : gable.IsConvex := by
  refine isConvex_three (n := ⟨0, -1, 0⟩) (fun h => ?_) ?_ ?_ ?_
  · simpa using congrArg Vec3.y h
  · norm_num [Vec3.dot]
  · norm_num [Vec3.dot]
  · norm_num [Vec3.turn, Vec3.dot, Vec3.cross]

theorem mem_region_gable : (⟨-2, 0, -2⟩ : Vec3 ℝ) ∈ gable.region := by
  have hmem : ∀ x ∈ gable.corners, x ∈ gable.region := fun x => mem_region_of_mem
  simp only [corners, gable, List.map_cons, List.map_nil, List.forall_mem_cons] at hmem
  obtain ⟨ha, hb, hc, -⟩ := hmem
  -- halfway between the first corner and the middle of the edge across from it
  have hmiddle := gable.convex_region hb hc (by norm_num : (0 : ℝ) ≤ 1 / 2)
    (by norm_num : (0 : ℝ) ≤ 1 / 2) (by norm_num)
  have hpoint := gable.convex_region ha hmiddle (by norm_num : (0 : ℝ) ≤ 1 / 2)
    (by norm_num : (0 : ℝ) ≤ 1 / 2) (by norm_num)
  convert hpoint using 1
  ext <;> norm_num

end Polygon

namespace Tree

/-! ### Planes and solids -/

/-- The planes of all nodes. -/
def planes : Tree ℝ → List (Plane ℝ)
  | .absent => []
  | .node plane _ front back => plane.toList ++ front.planes ++ back.planes

/-- Every node has a plane. -/
def Grown : Tree ℝ → Prop
  | .absent => True
  | .node plane _ front back => plane.isSome ∧ front.Grown ∧ back.Grown

/-- The point is in the solid: on the way down from the root, to the front or the
back child by the side of the plane it is on, a back child is missing at the end. A
missing front child is outside, and nothing is inside a tree that holds nothing. -/
def Inside : Tree ℝ → Vec3 ℝ → Prop
  | .absent, _ => False
  | .node none _ _ _, _ => False
  | .node (some p) _ front back, x =>
    if 0 < p.signedDistance x then front.Inside x else back.isAbsent ∨ back.Inside x

/-- The point is further than the tolerance from the planes of all nodes. -/
def Clear (eps : ℝ) (t : Tree ℝ) (x : Vec3 ℝ) : Prop :=
  ∀ p ∈ t.planes, eps < |p.signedDistance x|

variable {eps : ℝ} {t solid : Tree ℝ} {polygons : List (Polygon ℝ)} {r : Polygon ℝ} {x : Vec3 ℝ}

theorem inside_of_pos {p : Plane ℝ} {own : List (Polygon ℝ)} {front back : Tree ℝ}
    (h : 0 < p.signedDistance x) : (node (some p) own front back).Inside x ↔ front.Inside x := by
  rw [Inside, if_pos h]

theorem inside_of_neg {p : Plane ℝ} {own : List (Polygon ℝ)} {front back : Tree ℝ}
    (h : p.signedDistance x < 0) :
    (node (some p) own front back).Inside x ↔ back.isAbsent ∨ back.Inside x := by
  rw [Inside, if_neg h.le.not_gt]

theorem clear_node {p : Plane ℝ} {own : List (Polygon ℝ)} {front back : Tree ℝ} :
    (node (some p) own front back).Clear eps x ↔
      eps < |p.signedDistance x| ∧ front.Clear eps x ∧ back.Clear eps x := by
  simp only [Clear, planes, Option.toList_some, List.mem_append, List.mem_singleton, or_imp,
    forall_and, forall_eq, and_assoc]

/-! ### Clipping -/

/-- Every polygon that clipping leaves is a piece of one that was clipped. -/
theorem exists_pieceOf_clipped (heps : Scalar.epsilon ≤ eps) (h : r ∈ t.clipped eps polygons) :
    ∃ q ∈ polygons, r.PieceOf q := by
  induction t generalizing polygons with
  | absent => cases h
  | node plane own front back ihFront ihBack =>
    cases plane with
    | none => exact ⟨r, h, .refl r⟩
    | some p =>
      simp only [clipped, List.mem_append] at h
      have hfront : ∀ r, r ∈ Pieces.inFront (p.splitAll eps polygons) →
          ∃ q ∈ polygons, r.PieceOf q := fun r => Plane.exists_pieceOf_inFront heps
      rcases h with (h | h) | h
      · split at h
        · exact hfront r h
        · cases h
      · obtain ⟨s, hs, hrs⟩ := ihBack h
        obtain ⟨q, hq, hsq⟩ := Plane.exists_pieceOf_behind heps hs
        exact ⟨q, hq, hrs.trans hsq⟩
      · obtain ⟨s, hs, hrs⟩ := ihFront h
        obtain ⟨q, hq, hsq⟩ := hfront s hs
        exact ⟨q, hq, hrs.trans hsq⟩

theorem cover_clipped_subset (heps : Scalar.epsilon ≤ eps) :
    cover (t.clipped eps polygons) ⊆ cover polygons := by
  rintro x ⟨r, hr, hx⟩
  obtain ⟨q, hq, hrq⟩ := exists_pieceOf_clipped heps hr
  exact ⟨q, hq, hrq.region_subset hx⟩

/-- Clipping leaves, of the points that are clear of the tree, exactly those outside
its solid. -/
theorem mem_cover_clipped (heps : Scalar.epsilon ≤ eps) (hconvex : ∀ q ∈ polygons, q.IsConvex)
    (hclear : t.Clear eps x) :
    x ∈ cover (t.clipped eps polygons) ↔
      t.isAbsent = false ∧ x ∈ cover polygons ∧ ¬ t.Inside x := by
  have hpos : (0 : ℝ) < Scalar.epsilon := Scalar.epsilon_pos
  induction t generalizing polygons with
  | absent => simp [clipped, isAbsent]
  | node plane own front back ihFront ihBack =>
    cases plane with
    | none => simp [clipped, isAbsent, Inside]
    | some p =>
      obtain ⟨hp, hclearFront, hclearBack⟩ := clear_node.mp hclear
      have hsplit := p.cover_inFront_union_behind heps hconvex
      have hconvexFront : ∀ q ∈ Pieces.inFront (p.splitAll eps polygons), q.IsConvex := by
        intro q hq
        obtain ⟨q', hq', h⟩ := Plane.exists_pieceOf_inFront heps hq
        exact h.isConvex (hconvex q' hq')
      have hconvexBack : ∀ q ∈ Pieces.behind (p.splitAll eps polygons), q.IsConvex := by
        intro q hq
        obtain ⟨q', hq', h⟩ := Plane.exists_pieceOf_behind heps hq
        exact h.isConvex (hconvex q' hq')
      have hfront := ihFront hconvexFront hclearFront
      have hback := ihBack hconvexBack hclearBack
      simp only [clipped, cover_append, Set.mem_union, hfront, hback, ← hsplit, isAbsent, true_and]
      rcases lt_abs.mp hp with hx | hx
      · have hnot : x ∉ cover (Pieces.behind (p.splitAll eps polygons)) := fun h =>
          absurd (Plane.le_of_mem_cover_behind heps h) (not_le.mpr hx)
        rw [inside_of_pos (by linarith)]
        cases front <;> simp [hnot, Inside]
      · have hnot : x ∉ cover (Pieces.inFront (p.splitAll eps polygons)) := fun h =>
          absurd (Plane.le_of_mem_cover_inFront heps h) (by linarith)
        have hkept : x ∉ cover (if front.isAbsent then
            Pieces.inFront (p.splitAll eps polygons) else []) := by
          split <;> simp [hnot]
        rw [inside_of_neg (by linarith)]
        simp only [hnot, false_or, false_and, and_false, or_false, not_or,
          Bool.not_eq_true]
        tauto

/-- **Clipping takes away the solid.** Of the points further than the tolerance from all
planes of a tree, clipping leaves exactly those of the polygons that are outside. -/
theorem mem_cover_clip (heps : Scalar.epsilon ≤ eps) (hpresent : t.isAbsent = false)
    (hconvex : ∀ q ∈ polygons, q.IsConvex) (hclear : t.Clear eps x) :
    x ∈ cover (t.clip eps polygons) ↔ x ∈ cover polygons ∧ ¬ t.Inside x := by
  rw [clip_eq_clipped, mem_cover_clipped heps hconvex hclear]
  exact and_iff_right hpresent

/-- A triangle that lies across both planes of a tree loses the points behind the two. -/
theorem mem_cover_clip_gable : ∃ t : Tree ℝ,
    t = node (some ⟨⟨0, 0, 1⟩, -1⟩) [] absent (node (some ⟨⟨1, 0, 0⟩, -1⟩) [] absent absent) ∧
      Scalar.epsilon ≤ (1 / 2 : ℝ) ∧ t.isAbsent = false ∧ (∀ q ∈ [Polygon.gable], q.IsConvex) ∧
      t.Clear (1 / 2) ⟨-2, 0, -2⟩ ∧ ⟨-2, 0, -2⟩ ∈ cover [Polygon.gable] ∧
      ⟨-2, 0, -2⟩ ∉ cover (t.clip (1 / 2) [Polygon.gable]) := by
  have heps : Scalar.epsilon ≤ (1 / 2 : ℝ) := by
    rw [Scalar.epsilon_real]
    norm_num
  have hconvex : ∀ q ∈ [Polygon.gable], q.IsConvex := by
    simpa using Polygon.isConvex_gable
  have hclear : (node (some ⟨⟨0, 0, 1⟩, -1⟩) [] absent
      (node (some ⟨⟨1, 0, 0⟩, -1⟩) [] absent absent) : Tree ℝ).Clear (1 / 2) ⟨-2, 0, -2⟩ := by
    norm_num [Clear, planes, Plane.signedDistance, Vec3.dot, abs_of_neg]
  refine ⟨_, rfl, heps, rfl, hconvex, hclear, ?_, ?_⟩
  · exact ⟨_, List.mem_singleton_self _, Polygon.mem_region_gable⟩
  · rw [mem_cover_clip heps rfl hconvex hclear]
    norm_num [Inside, isAbsent, Plane.signedDistance, Vec3.dot]

/-! ### Clipping the polygons of a tree -/

@[simp] theorem isAbsent_clipTo : (t.clipTo eps solid).isAbsent = t.isAbsent := by
  cases t <;> rfl

@[simp] theorem levels_clipTo : (t.clipTo eps solid).levels = t.levels := by
  induction t with
  | absent => rfl
  | node plane own front back ihFront ihBack => simp only [clipTo, levels, ihFront, ihBack]

@[simp] theorem grown_clipTo : (t.clipTo eps solid).Grown ↔ t.Grown := by
  induction t with
  | absent => rfl
  | node plane own front back ihFront ihBack => simp only [clipTo, Grown, ihFront, ihBack]

/-- Clipping looks at the planes of a tree and never at its polygons. -/
@[simp] theorem clipped_clipTo : (t.clipTo eps solid).clipped eps polygons
    = t.clipped eps polygons := by
  induction t generalizing polygons with
  | absent => rfl
  | node plane own front back ihFront ihBack =>
    cases plane with
    | none => rfl
    | some p => simp only [clipTo, clipped, ihFront, ihBack, isAbsent_clipTo]

/-- Trees that clip alike clip a tree alike. -/
theorem clipTo_congr {solid' : Tree ℝ}
    (h : ∀ polygons, solid.clipped eps polygons = solid'.clipped eps polygons) :
    t.clipTo eps solid = t.clipTo eps solid' := by
  induction t with
  | absent => rfl
  | node plane own front back ihFront ihBack =>
    simp only [clipTo, clip_eq_clipped, h, ihFront, ihBack]

theorem exists_pieceOf_clipTo (heps : Scalar.epsilon ≤ eps)
    (h : r ∈ (t.clipTo eps solid).polygons) : ∃ q ∈ t.polygons, r.PieceOf q := by
  induction t with
  | absent => cases h
  | node plane own front back ihFront ihBack =>
    simp only [clipTo, polygons_node, List.mem_append, clip_eq_clipped] at h ⊢
    rcases h with (h | h) | h
    · obtain ⟨q, hq, hrq⟩ := exists_pieceOf_clipped heps h
      exact ⟨q, .inl (.inl hq), hrq⟩
    · obtain ⟨q, hq, hrq⟩ := ihBack h
      exact ⟨q, .inl (.inr hq), hrq⟩
    · obtain ⟨q, hq, hrq⟩ := ihFront h
      exact ⟨q, .inr hq, hrq⟩

theorem cover_clipTo_subset (heps : Scalar.epsilon ≤ eps) :
    cover (t.clipTo eps solid).polygons ⊆ cover t.polygons := by
  rintro x ⟨r, hr, hx⟩
  obtain ⟨q, hq, hrq⟩ := exists_pieceOf_clipTo heps hr
  exact ⟨q, hq, hrq.region_subset hx⟩

theorem isConvex_of_mem_clipTo (heps : Scalar.epsilon ≤ eps)
    (hconvex : ∀ q ∈ t.polygons, q.IsConvex) :
    ∀ r ∈ (t.clipTo eps solid).polygons, r.IsConvex := by
  intro r hr
  obtain ⟨q, hq, hrq⟩ := exists_pieceOf_clipTo heps hr
  exact hrq.isConvex (hconvex q hq)

/-- Clipping a tree leaves, of the points clear of the other tree, exactly those
outside the other tree's solid. -/
theorem mem_cover_clipTo (heps : Scalar.epsilon ≤ eps) (hsolid : solid.isAbsent = false)
    (hconvex : ∀ q ∈ t.polygons, q.IsConvex) (hclear : solid.Clear eps x) :
    x ∈ cover (t.clipTo eps solid).polygons ↔ x ∈ cover t.polygons ∧ ¬ solid.Inside x := by
  induction t with
  | absent => simp [clipTo]
  | node plane own front back ihFront ihBack =>
    simp only [polygons_node, List.mem_append] at hconvex
    simp only [clipTo, polygons_node, cover_append, Set.mem_union, clip_eq_clipped,
      mem_cover_clipped heps (fun q hq => hconvex q (.inl (.inl hq))) hclear,
      ihBack (fun q hq => hconvex q (.inl (.inr hq))), ihFront (fun q hq => hconvex q (.inr hq))]
    tauto

/-! ### Inverting -/

@[simp] theorem isAbsent_invert : t.invert.isAbsent = t.isAbsent := by cases t <;> rfl

@[simp] theorem clipped_invert_clipTo : (t.clipTo eps solid).invert.clipped eps polygons
    = t.invert.clipped eps polygons := by
  induction t generalizing polygons with
  | absent => rfl
  | node plane own front back ihFront ihBack =>
    cases plane with
    | none => rfl
    | some p =>
      simp only [clipTo, invert, Option.map_some, clipped, ihFront, ihBack, isAbsent_invert,
        isAbsent_clipTo]

@[simp] theorem levels_invert : t.invert.levels = t.levels := by
  induction t with
  | absent => rfl
  | node plane own front back ihFront ihBack =>
    simp only [invert, levels, ihFront, ihBack, max_comm]

@[simp] theorem grown_invert : t.invert.Grown ↔ t.Grown := by
  induction t with
  | absent => rfl
  | node plane own front back ihFront ihBack =>
    simp only [invert, Grown, ihFront, ihBack, Option.isSome_map, and_comm]

theorem planes_invert : t.invert.planes.Perm (t.planes.map Plane.flip) := by
  induction t with
  | absent => exact .nil
  | node plane own front back ihFront ihBack =>
    simp only [invert, planes, List.map_append, List.append_assoc]
    have hroot : (plane.map Plane.flip).toList = plane.toList.map Plane.flip := by
      cases plane <;> rfl
    rw [hroot]
    exact (((ihBack.append ihFront).trans List.perm_append_comm)).append_left _

theorem polygons_invert : t.invert.polygons.Perm (t.polygons.map Polygon.flip) := by
  induction t with
  | absent => exact .nil
  | node plane own front back ihFront ihBack =>
    simp only [invert, polygons_node, List.map_append, List.append_assoc]
    exact ((ihFront.append ihBack).trans List.perm_append_comm).append_left _

theorem mem_polygons_invert : r ∈ t.invert.polygons ↔ ∃ q ∈ t.polygons, q.flip = r := by
  rw [polygons_invert.mem_iff, List.mem_map]

theorem isConvex_of_mem_invert (hconvex : ∀ q ∈ t.polygons, q.IsConvex) :
    ∀ r ∈ t.invert.polygons, r.IsConvex := by
  intro r hr
  obtain ⟨q, hq, rfl⟩ := mem_polygons_invert.mp hr
  exact Polygon.isConvex_flip.mpr (hconvex q hq)

/-- Inverted twice a tree is what it was, if negating a number twice gives it back. -/
theorem invert_invert_of_neg_neg {K : Type} [Scalar K] (hneg : ∀ a : K, - -a = a) (t : Tree K) :
    t.invert.invert = t := by
  induction t with
  | absent => rfl
  | node plane own front back ihFront ihBack =>
    have hplane : (plane.map Plane.flip).map Plane.flip = plane := by
      cases plane <;> simp [Plane.flip_flip_of_neg_neg hneg]
    have hown : (own.map Polygon.flip).map Polygon.flip = own := by
      simp [Polygon.flip_flip_of_neg_neg hneg, Function.comp_def]
    simp only [invert, ihFront, ihBack, hplane, hown]

@[simp] theorem invert_invert (t : Tree ℝ) : t.invert.invert = t :=
  invert_invert_of_neg_neg neg_neg t

@[simp] theorem cover_invert : cover t.invert.polygons = cover t.polygons := by
  ext x
  simp [mem_cover, mem_polygons_invert]

@[simp] theorem clear_invert : t.invert.Clear eps x ↔ t.Clear eps x := by
  simp only [Clear, planes_invert.mem_iff, List.mem_map, forall_exists_index, and_imp,
    forall_apply_eq_imp_iff₂, Plane.flip_signedDistance, abs_neg]

/-- Inverting exchanges inside and outside. -/
theorem inside_invert (heps : 0 ≤ eps) (hgrown : t.Grown) (habsent : t.isAbsent = false)
    (hclear : t.Clear eps x) : t.invert.Inside x ↔ ¬ t.Inside x := by
  induction t with
  | absent => cases habsent
  | node plane own front back ihFront ihBack =>
    obtain ⟨hplane, hgrownFront, hgrownBack⟩ := hgrown
    obtain ⟨p, rfl⟩ := Option.isSome_iff_exists.mp hplane
    obtain ⟨hp, hclearFront, hclearBack⟩ := clear_node.mp hclear
    rw [invert, Option.map_some]
    rcases lt_abs.mp hp with hx | hx
    · rw [inside_of_neg (by rw [Plane.flip_signedDistance]; linarith),
        inside_of_pos (by linarith), isAbsent_invert]
      cases front with
      | absent => simp [isAbsent, Inside]
      | node => simpa [isAbsent] using ihFront hgrownFront rfl hclearFront
    · rw [inside_of_pos (by rw [Plane.flip_signedDistance]; linarith),
        inside_of_neg (by linarith)]
      cases back with
      | absent => simp [isAbsent, Inside, invert]
      | node => simpa [isAbsent] using ihBack hgrownBack rfl hclearBack

end Tree

end Solids
