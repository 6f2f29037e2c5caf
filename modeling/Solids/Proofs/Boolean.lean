import Solids.Proofs.Build
import Solids.Mesh.Boolean
/-!
# Solids.Proofs.Boolean

**The runs of the boolean operations.** Each operation inverts two trees and clips
them by each other, in an order of its own, and then puts the polygons that are left
of the second tree into the first.

Main definitions:

* `Tree.keptByUnion`, `Tree.keptByDifference`, `Tree.keptByIntersection` — the two
  trees before that last step. `Mesh.union_eq_some` and its companions say that this
  is what the operations compute;
* `Polygon.MadeOf` — what a polygon has of the one it was made from, however often
  it was cut or turned over;
* `Tree.IsOperand` — the invariant of all steps: a tree of such polygons, not deeper
  than there were polygons to begin with.

Main statement: `Tree.IsOperand.exists_insert`. The last step ends, and the depth and
the planes of the operands say after how many levels.
-/

namespace Solids

/-- What a polygon has of one of `source` that it was made from by cutting and turning
over. -/
structure Polygon.MadeOf (eps : ℝ) (source : List (Polygon ℝ)) (q : Polygon ℝ) : Prop where
  /-- Its corners are near its plane. -/
  fits : q.Fits eps
  /-- It is a part of one of them, on the same plane, and convex if that is. -/
  origin : ∃ o ∈ source, q.region ⊆ o.region ∧ (o.IsConvex → q.IsConvex) ∧
    (q.plane = o.plane ∨ q.plane = o.plane.flip)

namespace Polygon.MadeOf

variable {eps : ℝ} {source : List (Polygon ℝ)} {q r : Polygon ℝ}

theorem of_mem (hq : q ∈ source) (hfits : q.Fits eps) : q.MadeOf eps source :=
  ⟨hfits, q, hq, subset_rfl, id, .inl rfl⟩

theorem piece (h : q.MadeOf eps source) (hr : r.PieceOf q) : r.MadeOf eps source := by
  obtain ⟨o, ho, hregion, hconvex, hplane⟩ := h.origin
  exact ⟨hr.fits h.fits, o, ho, hr.region_subset.trans hregion, fun h => hr.isConvex (hconvex h),
    by rwa [hr.plane_eq]⟩

theorem flip (h : q.MadeOf eps source) : q.flip.MadeOf eps source := by
  obtain ⟨o, ho, hregion, hconvex, hplane⟩ := h.origin
  refine ⟨fits_flip.mpr h.fits, o, ho, by rwa [flip_region],
    fun h => isConvex_flip.mpr (hconvex h), ?_⟩
  rw [flip_plane]
  rcases hplane with hplane | hplane
  · exact .inr (congrArg Plane.flip hplane)
  · exact .inl (by rw [hplane, Plane.flip_flip])

theorem isConvex (h : q.MadeOf eps source) (hsource : ∀ o ∈ source, o.IsConvex) : q.IsConvex := by
  obtain ⟨o, ho, -, hconvex, -⟩ := h.origin
  exact hconvex (hsource o ho)

theorem region_subset_cover (h : q.MadeOf eps source) : q.region ⊆ cover source := by
  obtain ⟨o, ho, hregion, -⟩ := h.origin
  exact fun x hx => ⟨o, ho, hregion hx⟩

end Polygon.MadeOf

namespace Tree

variable {eps : ℝ} {levels : ℕ} {a b : List (Polygon ℝ)} {t ta tb joined solid : Tree ℝ}
  {x : Vec3 ℝ}

/-! ### Operands -/

/-- A tree that is there, has a plane at every node and holds what was made of
`source`. It is not deeper, nor has it polygons on more planes, than there are
polygons in `source`. -/
structure IsOperand (eps : ℝ) (source : List (Polygon ℝ)) (t : Tree ℝ) : Prop where
  /-- The tree is no missing child. -/
  present : t.isAbsent = false
  /-- Every node has a plane. -/
  grown : t.Grown
  /-- The tree is not deeper than there were polygons. -/
  levels_le : t.levels ≤ source.length
  /-- The polygons are on no more planes than there were polygons. -/
  few : ∃ planes : Finset (Plane ℝ), planes.card ≤ source.length ∧
    ∀ q ∈ t.polygons, q.plane ∈ planes
  /-- Every polygon was made of those. -/
  madeOf : ∀ q ∈ t.polygons, q.MadeOf eps source

namespace IsOperand

theorem clipTo (heps : Scalar.epsilon ≤ eps) (h : t.IsOperand eps a) :
    (t.clipTo eps solid).IsOperand eps a where
  present := isAbsent_clipTo.trans h.present
  grown := grown_clipTo.mpr h.grown
  levels_le := levels_clipTo.trans_le h.levels_le
  few := by
    obtain ⟨planes, hcard, hplanes⟩ := h.few
    refine ⟨planes, hcard, fun r hr => ?_⟩
    obtain ⟨q, hq, hrq⟩ := exists_pieceOf_clipTo heps hr
    rw [hrq.plane_eq]
    exact hplanes q hq
  madeOf r hr := by
    obtain ⟨q, hq, hrq⟩ := exists_pieceOf_clipTo heps hr
    exact (h.madeOf q hq).piece hrq

open scoped Classical in
theorem invert (h : t.IsOperand eps a) : t.invert.IsOperand eps a where
  present := isAbsent_invert.trans h.present
  grown := grown_invert.mpr h.grown
  levels_le := levels_invert.trans_le h.levels_le
  few := by
    obtain ⟨planes, hcard, hplanes⟩ := h.few
    refine ⟨planes.image Plane.flip, Finset.card_image_le.trans hcard, fun r hr => ?_⟩
    obtain ⟨q, hq, rfl⟩ := mem_polygons_invert.mp hr
    exact Finset.mem_image_of_mem _ (hplanes q hq)
  madeOf r hr := by
    obtain ⟨q, hq, rfl⟩ := mem_polygons_invert.mp hr
    exact (h.madeOf q hq).flip

theorem cover_subset (h : t.IsOperand eps a) : cover t.polygons ⊆ cover a := by
  rintro x ⟨q, hq, hx⟩
  exact (h.madeOf q hq).region_subset_cover hx

theorem mem_cover_clipTo (heps : Scalar.epsilon ≤ eps) (h : t.IsOperand eps a)
    (hsolid : solid.IsOperand eps b) (hconvex : ∀ q ∈ a, q.IsConvex) (hclear : solid.Clear eps x) :
    x ∈ cover (t.clipTo eps solid).polygons ↔ x ∈ cover t.polygons ∧ ¬ solid.Inside x :=
  Tree.mem_cover_clipTo heps hsolid.present (fun q hq => (h.madeOf q hq).isConvex hconvex) hclear

theorem inside_invert (heps : Scalar.epsilon ≤ eps) (h : t.IsOperand eps a)
    (hclear : t.Clear eps x) : t.invert.Inside x ↔ ¬ t.Inside x :=
  Tree.inside_invert (Scalar.epsilon_pos.le.trans heps) h.grown h.present hclear

/-- Joining two operands ends. -/
theorem exists_insert (heps : Scalar.epsilon ≤ eps) (ha : ta.IsOperand eps a)
    (hb : tb.IsOperand eps b) (hlevels : a.length + b.length ≤ levels) :
    ∃ joined, ta.insert eps levels tb.polygons = some joined := by
  obtain ⟨planes, hcard, hplanes⟩ := hb.few
  have hta := ha.levels_le
  have henough : ta.levels + planes.card ≤ levels := by omega
  obtain ⟨joined, hjoined, -⟩ :=
    Tree.exists_insert heps ha.grown (fun q hq => (hb.madeOf q hq).fits) hplanes henough
  exact ⟨joined, hjoined⟩

/-- What two joined operands hold was made of what they come from. -/
theorem madeOf_insert (heps : Scalar.epsilon ≤ eps) (ha : ta.IsOperand eps a)
    (hb : tb.IsOperand eps b) (h : ta.insert eps levels tb.polygons = some joined)
    {r : Polygon ℝ} (hr : r ∈ joined.polygons) : r.MadeOf eps a ∨ r.MadeOf eps b := by
  rcases mem_or_near_of_mem_insert heps h hr with hr | ⟨⟨q, hq, hrq⟩, -⟩
  · exact .inl (ha.madeOf r hr)
  · exact .inr ((hb.madeOf q hq).piece hrq)

end IsOperand

theorem ofPolygons_cons (first : Polygon ℝ) (rest : List (Polygon ℝ)) :
    ofPolygons eps levels (first :: rest) = absent.insert eps levels (first :: rest) := by
  cases levels <;> rfl

/-- A tree of some polygons is built like one below a node. -/
theorem ofPolygons_eq (hne : a ≠ []) : ofPolygons eps levels a = absent.insert eps levels a := by
  obtain ⟨first, rest, rfl⟩ := List.exists_cons_of_ne_nil hne
  exact ofPolygons_cons first rest

open scoped Classical in
/-- Polygons that fit their own planes have a tree, and it is an operand. -/
theorem exists_ofPolygons (heps : Scalar.epsilon ≤ eps) (hne : a ≠ [])
    (hfits : ∀ q ∈ a, q.Fits eps) (hlevels : a.length ≤ levels) :
    ∃ t, ofPolygons eps levels a = some t ∧ t.IsOperand eps a := by
  have hcard : ((a.map Polygon.plane).toFinset).card ≤ a.length := by
    simpa using List.toFinset_card_le (a.map Polygon.plane)
  have hplanes : ∀ q ∈ a, q.plane ∈ (a.map Polygon.plane).toFinset := fun q hq => by
    rw [List.mem_toFinset]
    exact List.mem_map_of_mem hq
  have henough : (absent : Tree ℝ).levels + (a.map Polygon.plane).toFinset.card ≤ levels := by
    rw [Tree.levels]
    omega
  have hgrown : (absent : Tree ℝ).Grown := trivial
  obtain ⟨t, ht, htlevels⟩ := Tree.exists_insert heps hgrown hfits hplanes henough
  have hmem : ∀ r ∈ t.polygons, ∃ q ∈ a, r.PieceOf q := fun r hr =>
    ((mem_or_near_of_mem_insert heps ht hr).resolve_left (by simp)).1
  refine ⟨t, by rw [ofPolygons_eq hne, ht], isAbsent_insert ht (.inr hne), grown_insert ht trivial,
    ?_, ⟨_, hcard, fun r hr => ?_⟩, fun r hr => ?_⟩
  · rw [Tree.levels] at htlevels
    omega
  · obtain ⟨q, hq, hrq⟩ := hmem r hr
    rw [hrq.plane_eq]
    exact hplanes q hq
  · obtain ⟨q, hq, hrq⟩ := hmem r hr
    exact (Polygon.MadeOf.of_mem hq (hfits q hq)).piece hrq

/-! ### What the operations join -/

/-- The two trees that a union joins: either clipped by the other, the second one
from both sides. -/
noncomputable def keptByUnion (eps : ℝ) (ta tb : Tree ℝ) : Tree ℝ × Tree ℝ :=
  let ta := ta.clipTo eps tb
  let tb := tb.clipTo eps ta
  (ta, (tb.invert.clipTo eps ta).invert)

/-- The two trees that a difference joins: those of a union of what is not in the first
solid with the second one. -/
noncomputable def keptByDifference (eps : ℝ) (ta tb : Tree ℝ) : Tree ℝ × Tree ℝ :=
  keptByUnion eps ta.invert tb

/-- The two trees that an intersection joins. -/
noncomputable def keptByIntersection (eps : ℝ) (ta tb : Tree ℝ) : Tree ℝ × Tree ℝ :=
  let ta := ta.invert
  let tb := (tb.clipTo eps ta).invert
  let ta := ta.clipTo eps tb
  (ta, tb.clipTo eps ta)

/-- Clipping a solid first does not change what it clips. -/
theorem keptByUnion_eq (ta tb : Tree ℝ) : keptByUnion eps ta tb
    = (ta.clipTo eps tb, ((tb.clipTo eps ta).invert.clipTo eps ta).invert) := by
  have hclip : ∀ t : Tree ℝ, t.clipTo eps (ta.clipTo eps tb) = t.clipTo eps ta := fun t =>
    clipTo_congr fun _ => clipped_clipTo
  rw [keptByUnion, hclip, hclip]

/-- Clipping a solid first does not change what it clips. -/
theorem keptByIntersection_eq (ta tb : Tree ℝ) : keptByIntersection eps ta tb
    = (ta.invert.clipTo eps tb.invert,
      (tb.clipTo eps ta.invert).invert.clipTo eps ta.invert) := by
  have hfirst : ta.invert.clipTo eps (tb.clipTo eps ta.invert).invert
      = ta.invert.clipTo eps tb.invert := clipTo_congr fun _ => clipped_invert_clipTo
  have hsecond : ∀ t : Tree ℝ, t.clipTo eps (ta.invert.clipTo eps tb.invert)
      = t.clipTo eps ta.invert := fun t => clipTo_congr fun _ => clipped_clipTo
  rw [keptByIntersection, hfirst, hsecond]

/-- The two trees that an operation joins. -/
noncomputable def keptBy (eps : ℝ) : Combination → Tree ℝ → Tree ℝ → Tree ℝ × Tree ℝ
  | .union => keptByUnion eps
  | .subtract => keptByDifference eps
  | .intersect => keptByIntersection eps

theorem grown_keptBy (c : Combination) : (keptBy eps c ta tb).1.Grown ↔ ta.Grown := by
  cases c <;>
    simp [keptBy, keptByDifference, keptByUnion_eq, keptByIntersection_eq]

theorem IsOperand.keptByUnion (heps : Scalar.epsilon ≤ eps) (ha : ta.IsOperand eps a)
    (hb : tb.IsOperand eps b) : (keptByUnion eps ta tb).1.IsOperand eps a ∧
      (keptByUnion eps ta tb).2.IsOperand eps b :=
  ⟨ha.clipTo heps, ((hb.clipTo heps).invert.clipTo heps).invert⟩

theorem IsOperand.keptByDifference (heps : Scalar.epsilon ≤ eps) (ha : ta.IsOperand eps a)
    (hb : tb.IsOperand eps b) : (keptByDifference eps ta tb).1.IsOperand eps a ∧
      (keptByDifference eps ta tb).2.IsOperand eps b :=
  ha.invert.keptByUnion heps hb

theorem IsOperand.keptByIntersection (heps : Scalar.epsilon ≤ eps) (ha : ta.IsOperand eps a)
    (hb : tb.IsOperand eps b) : (keptByIntersection eps ta tb).1.IsOperand eps a ∧
      (keptByIntersection eps ta tb).2.IsOperand eps b :=
  ⟨ha.invert.clipTo heps, (hb.clipTo heps).invert.clipTo heps⟩

theorem IsOperand.keptBy (heps : Scalar.epsilon ≤ eps) (ha : ta.IsOperand eps a)
    (hb : tb.IsOperand eps b) (c : Combination) : (keptBy eps c ta tb).1.IsOperand eps a ∧
      (keptBy eps c ta tb).2.IsOperand eps b := by
  cases c with
  | union => exact ha.keptByUnion heps hb
  | subtract => exact ha.keptByDifference heps hb
  | intersect => exact ha.keptByIntersection heps hb

end Tree

namespace Mesh

variable {s : Settings ℝ} {a b m : Mesh ℝ} {ta tb : Tree ℝ}

theorem ne_nil_of_meets (h : meets a b = true) : a.polygons ≠ [] ∧ b.polygons ≠ [] := by
  simp only [meets, isEmpty, Bool.and_eq_true, Bool.not_eq_true', List.isEmpty_eq_false_iff] at h
  exact h.1

/-- Polygons that fit their own planes have a tree. -/
theorem exists_tree? (heps : Scalar.epsilon ≤ s.tolerance) (hne : m.polygons ≠ [])
    (hfits : ∀ q ∈ m.polygons, q.Fits s.tolerance) (hlevels : m.polygons.length ≤ s.levels) :
    ∃ t, m.tree? s = some t ∧ t.IsOperand s.tolerance m.polygons :=
  Tree.exists_ofPolygons heps hne hfits hlevels

/-- A union of meshes that meet joins the trees kept by it. -/
theorem union_eq_some (hmeets : meets a b = true) (hta : a.tree? s = some ta)
    (htb : b.tree? s = some tb) : union s a b = some m ↔
      ∃ joined, (Tree.keptByUnion s.tolerance ta tb).1.insert s.tolerance s.levels
        (Tree.keptByUnion s.tolerance ta tb).2.polygons = some joined ∧
          m = ofPolygons joined.polygons := by
  rw [union, if_neg (by simpa [isEmpty] using (ne_nil_of_meets hmeets).1), hmeets, hta, htb]
  simp [Tree.keptByUnion, Option.bind_eq_some_iff, eq_comm (a := m)]

/-- A difference of meshes that meet joins the trees kept by it and turns the result
over. -/
theorem difference_eq_some (hmeets : meets a b = true) (hta : a.tree? s = some ta)
    (htb : b.tree? s = some tb) : difference s a b = some m ↔
      ∃ joined, (Tree.keptByDifference s.tolerance ta tb).1.insert s.tolerance s.levels
        (Tree.keptByDifference s.tolerance ta tb).2.polygons = some joined ∧
          m = ofPolygons joined.invert.polygons := by
  rw [difference, hmeets, hta, htb]
  simp [Tree.keptByDifference, Tree.keptByUnion, Option.bind_eq_some_iff, eq_comm (a := m)]

/-- An intersection of meshes that meet joins the trees kept by it and turns the result
over. -/
theorem intersection_eq_some (hmeets : meets a b = true) (hta : a.tree? s = some ta)
    (htb : b.tree? s = some tb) : intersection s a b = some m ↔
      ∃ joined, (Tree.keptByIntersection s.tolerance ta tb).1.insert s.tolerance s.levels
        (Tree.keptByIntersection s.tolerance ta tb).2.polygons = some joined ∧
          m = ofPolygons joined.invert.polygons := by
  rw [intersection, hmeets, hta, htb]
  simp [Tree.keptByIntersection, Option.bind_eq_some_iff, eq_comm (a := m)]

/-- Whether an operation on meshes that meet ends is decided by what it joins. -/
theorem isSome_combineWith (hmeets : meets a b = true) (hta : a.tree? s = some ta)
    (htb : b.tree? s = some tb) (c : Combination) : (combineWith s c a b).isSome ↔
      ((Tree.keptBy s.tolerance c ta tb).1.insert s.tolerance s.levels
        (Tree.keptBy s.tolerance c ta tb).2.polygons).isSome := by
  simp only [Option.isSome_iff_exists]
  cases c <;> simp only [combineWith, Tree.keptBy, union_eq_some hmeets hta htb,
    difference_eq_some hmeets hta htb, intersection_eq_some hmeets hta htb]
  all_goals
    constructor
    · rintro ⟨-, joined, h, -⟩
      exact ⟨joined, h⟩
    · rintro ⟨joined, h⟩
      exact ⟨_, joined, h, rfl⟩

/-- An operation on meshes that meet has trees of both. -/
theorem exists_trees (hmeets : meets a b = true) {c : Combination}
    (h : combineWith s c a b = some m) :
    ∃ ta tb, a.tree? s = some ta ∧ b.tree? s = some tb := by
  have hne : a.isEmpty = false := by simpa [isEmpty] using (ne_nil_of_meets hmeets).1
  cases hta : a.tree? s with
  | none => cases c <;> simp [combineWith, union, difference, intersection, hmeets, hne, hta] at h
  | some ta =>
    cases htb : b.tree? s with
    | none =>
      cases c <;> simp [combineWith, union, difference, intersection, hmeets, hne, hta, htb] at h
    | some tb => exact ⟨ta, tb, rfl, rfl⟩

/-- An operation on meshes that do not meet ends at once. -/
theorem isSome_combineWith_of_not_meets (hmeets : meets a b = false) (c : Combination) :
    (combineWith s c a b).isSome := by
  cases c <;> simp only [combineWith, union, difference, intersection, hmeets, Bool.not_false,
    if_true, Option.isSome_some]
  split <;> rfl

end Mesh

end Solids
