import Solids.Proofs.Slab
/-!
# Solids.Proofs.Sorted

**Where the polygons of a tree are.** A tree that was made by inserting, inverting and
clipping, in any order and as often as one likes, is sorted: at every node, what the node
holds itself is on its plane, what is below its front child is not behind the plane, and
what is below its back child is not in front of it, all up to the tolerance.

A single polygon is thus held against all the nodes above it at once. No operation has to
look up for that: each one leaves pieces of what was there, and a piece is wherever the
polygon was that it was cut from.

Main definitions:

* `Tree.IsSorted` — the invariant;
* `Tree.Edit` — one operation on a tree.

Main statement: `Tree.isSorted_of_edits`.
-/

namespace Solids

/-! ### Corners in a set -/

/-- All corners of all polygons of a list are in a set. -/
def CornersIn (s : Set (Vec3 ℝ)) (polygons : List (Polygon ℝ)) : Prop :=
  ∀ q ∈ polygons, ∀ x ∈ q.corners, x ∈ s

namespace CornersIn

variable {s : Set (Vec3 ℝ)} {l r : List (Polygon ℝ)}

@[simp] theorem nil : CornersIn s [] := by
  simp [CornersIn]

@[simp] theorem append : CornersIn s (l ++ r) ↔ CornersIn s l ∧ CornersIn s r :=
  List.forall_mem_append

/-- Pieces stay in a convex set. -/
theorem pieces (h : CornersIn s l) (hs : Convex ℝ s) (hr : ∀ q ∈ r, ∃ o ∈ l, q.PieceOf o) :
    CornersIn s r := by
  intro q hq
  obtain ⟨o, ho, hqo⟩ := hr q hq
  exact hqo.forall_corners hs (h o ho)

end CornersIn

namespace Tree

variable {eps : ℝ} {levels : ℕ} {t t' solid : Tree ℝ} {polygons : List (Polygon ℝ)}
  {p : Plane ℝ}

/-! ### The invariant -/

/-- What the two children of a node with the plane `p` hold, and what it holds itself, is
where it should be. -/
structure Divides (eps : ℝ) (p : Plane ℝ) (own front back : List (Polygon ℝ)) : Prop where
  /-- What the node holds is on the plane. -/
  own : CornersIn {x | |p.signedDistance x| ≤ eps} own
  /-- What is below the front child is not behind the plane. -/
  front : CornersIn {x | -eps ≤ p.signedDistance x} front
  /-- What is below the back child is not in front of the plane. -/
  back : CornersIn {x | p.signedDistance x ≤ eps} back

/-- Every node that has a plane divides what it and its children hold. -/
def IsSorted (eps : ℝ) : Tree ℝ → Prop
  | .absent => True
  | .node plane own front back =>
    (∀ p ∈ plane, Divides eps p own front.polygons back.polygons) ∧
      front.IsSorted eps ∧ back.IsSorted eps

theorem IsSorted.frontChild (h : t.IsSorted eps) : t.frontChild.IsSorted eps := by
  cases t with
  | absent => trivial
  | node plane own front back => exact h.2.1

theorem IsSorted.backChild (h : t.IsSorted eps) : t.backChild.IsSorted eps := by
  cases t with
  | absent => trivial
  | node plane own front back => exact h.2.2

/-! ### Inserting -/

/-- The tree holds nothing yet, or every node has a plane. Either way no polygon is at a
node that has none. -/
def IsReady (t : Tree ℝ) : Prop := t = empty ∨ t.Grown

theorem IsReady.grown_frontChild (h : t.IsReady) : t.frontChild.Grown := by
  rcases h with rfl | h
  · trivial
  · exact h.frontChild

theorem IsReady.grown_backChild (h : t.IsReady) : t.backChild.Grown := by
  rcases h with rfl | h
  · trivial
  · exact h.backChild

/-- The plane that an insertion divides by divides what the tree holds already. -/
theorem IsSorted.divides_divider (h : t.IsSorted eps) (hready : t.IsReady)
    (first : Polygon ℝ) (rest : List (Polygon ℝ)) :
    Divides eps (t.divider eps first rest) t.own t.frontChild.polygons t.backChild.polygons := by
  cases t with
  | absent => exact ⟨.nil, .nil, .nil⟩
  | node plane own front back =>
    cases plane with
    | some p => exact h.1 p rfl
    | none =>
      -- a node without a plane is no part of a tree that has grown
      obtain ⟨-, rfl, rfl, rfl⟩ : (none : Option (Plane ℝ)) = none ∧ own = [] ∧ front = absent ∧
          back = absent := by
        simpa [IsReady, Grown, empty] using hready
      exact ⟨.nil, .nil, .nil⟩

theorem CornersIn.insert {s : Set (Vec3 ℝ)} (heps : Scalar.epsilon ≤ eps) (hs : Convex ℝ s)
    (ht : CornersIn s t.polygons) (hpolygons : CornersIn s polygons)
    (h : t.insert eps levels polygons = some t') : CornersIn s t'.polygons := by
  intro r hr
  rcases mem_or_near_of_mem_insert heps h hr with hr | ⟨⟨q, hq, hrq⟩, -⟩
  · exact ht r hr
  · exact hrq.forall_corners hs (hpolygons q hq)

/-- Inserting keeps a tree sorted. -/
theorem IsSorted.insert (heps : Scalar.epsilon ≤ eps) (ht : t.IsSorted eps) (hready : t.IsReady)
    (h : t.insert eps levels polygons = some t') : t'.IsSorted eps := by
  induction levels generalizing t t' polygons with
  | zero =>
    cases polygons with
    | nil =>
      rw [insert_nil] at h
      exact Option.some.inj h ▸ ht
    | cons first rest => cases h
  | succ levels ih =>
    cases polygons with
    | nil =>
      rw [insert_nil] at h
      exact Option.some.inj h ▸ ht
    | cons first rest =>
      obtain ⟨front, back, hfront, hback, rfl⟩ := insert_cons_eq_some.mp h
      have hdivides := ht.divides_divider hready first rest
      refine ⟨fun p hp => ?_, ih ht.frontChild (.inr hready.grown_frontChild) hfront,
        ih ht.backChild (.inr hready.grown_backChild) hback⟩
      obtain rfl := Option.some.inj hp
      have hsplit := fun q => Plane.isSplit_split heps (t.divider eps first rest) q
      refine ⟨CornersIn.append.mpr ⟨hdivides.own, ?_⟩,
        CornersIn.insert heps (Plane.convex_ge _ _) hdivides.front ?_ hfront,
        CornersIn.insert heps (Plane.convex_le _ _) hdivides.back ?_ hback⟩
      · intro r hr
        obtain ⟨q, -, hr⟩ := Plane.mem_onPlane.mp hr
        exact (hsplit q).near r hr
      · intro r hr
        obtain ⟨q, -, hr⟩ := Plane.mem_front.mp hr
        exact (hsplit q).ahead r hr
      · intro r hr
        obtain ⟨q, -, hr⟩ := Plane.mem_back.mp hr
        exact (hsplit q).behind r hr

theorem IsReady.insert (hready : t.IsReady) (h : t.insert eps levels polygons = some t') :
    t'.IsReady := by
  rcases hready with rfl | hgrown
  · cases polygons with
    | nil =>
      rw [insert_nil] at h
      exact .inl (Option.some.inj h).symm
    | cons first rest =>
      -- an empty tree takes polygons like a missing one, and grows
      rw [← ofPolygons, ofPolygons_cons] at h
      exact .inr (grown_insert h trivial)
  · exact .inr (grown_insert h hgrown)

/-! ### Inverting -/

theorem CornersIn.invert {s s' : Set (Vec3 ℝ)} (hs : ∀ x ∈ s, x ∈ s')
    (h : CornersIn s t.polygons) : CornersIn s' t.invert.polygons := by
  intro r hr x hx
  obtain ⟨q, hq, rfl⟩ := mem_polygons_invert.mp hr
  rw [Polygon.flip_corners, List.mem_reverse] at hx
  exact hs x (h q hq x hx)

/-- Inverting keeps a tree sorted: the planes are turned over, and the children change
places. -/
theorem IsSorted.invert (ht : t.IsSorted eps) : t.invert.IsSorted eps := by
  induction t with
  | absent => trivial
  | node plane own front back ihFront ihBack =>
    obtain ⟨hplane, hfront, hback⟩ := ht
    refine ⟨fun p' hp' => ?_, ihBack hback, ihFront hfront⟩
    obtain ⟨p, hp, rfl⟩ := Option.mem_map.mp hp'
    have hdivides := hplane p hp
    refine ⟨fun r hr x hx => ?_, CornersIn.invert ?_ hdivides.back,
      CornersIn.invert ?_ hdivides.front⟩
    · obtain ⟨q, hq, rfl⟩ := List.mem_map.mp hr
      rw [Polygon.flip_corners, List.mem_reverse] at hx
      simpa using hdivides.own q hq x hx
    · intro x hx
      simpa using hx
    · intro x hx
      simpa [neg_le] using hx

theorem IsReady.invert (h : t.IsReady) : t.invert.IsReady := by
  rcases h with rfl | h
  · exact .inl rfl
  · exact .inr (grown_invert.mpr h)

/-! ### Clipping -/

/-- Clipping keeps a tree sorted, whatever it is clipped by. -/
theorem IsSorted.clipTo (heps : Scalar.epsilon ≤ eps) (ht : t.IsSorted eps) :
    (t.clipTo eps solid).IsSorted eps := by
  induction t with
  | absent => trivial
  | node plane own front back ihFront ihBack =>
    obtain ⟨hplane, hfront, hback⟩ := ht
    refine ⟨fun p hp => ?_, ihFront hfront, ihBack hback⟩
    have hdivides := hplane p hp
    refine ⟨hdivides.own.pieces (p.convex_abs_le eps) fun r hr => ?_,
      hdivides.front.pieces (p.convex_ge _) fun r hr => exists_pieceOf_clipTo heps hr,
      hdivides.back.pieces (p.convex_le _) fun r hr => exists_pieceOf_clipTo heps hr⟩
    rw [clip_eq_clipped] at hr
    exact exists_pieceOf_clipped heps hr

theorem IsReady.clipTo (h : t.IsReady) : (t.clipTo eps solid).IsReady := by
  rcases h with rfl | h
  · exact .inl (by simp [empty, Tree.clipTo, clip_eq_clipped])
  · exact .inr (grown_clipTo.mpr h)

/-! ### One operation after the other -/

/-- One operation on a tree: any polygons are inserted, as long as that ends, or the tree
is inverted, or clipped by any other. -/
inductive Edit (eps : ℝ) (t : Tree ℝ) : Tree ℝ → Prop where
  /-- Polygons are inserted. -/
  | insert {levels : ℕ} {polygons : List (Polygon ℝ)} {t' : Tree ℝ}
      (ends : t.insert eps levels polygons = some t') : Edit eps t t'
  /-- Inside and outside are exchanged. -/
  | invert : Edit eps t t.invert
  /-- What is inside another solid is removed. -/
  | clipTo (solid : Tree ℝ) : Edit eps t (t.clipTo eps solid)

/-- One operation keeps a tree sorted. -/
theorem Edit.isSorted (heps : Scalar.epsilon ≤ eps) (h : Edit eps t t')
    (ht : t.IsReady ∧ t.IsSorted eps) : t'.IsReady ∧ t'.IsSorted eps := by
  obtain ⟨hready, hsorted⟩ := ht
  cases h with
  | insert ends => exact ⟨hready.insert ends, hsorted.insert heps hready ends⟩
  | invert => exact ⟨hready.invert, hsorted.invert⟩
  | clipTo solid => exact ⟨hready.clipTo, hsorted.clipTo heps⟩

/-- **Trees are sorted.** However a tree was made from the empty one, all nodes below its
root have planes, and every plane divides what is at its node and below. -/
theorem isSorted_of_edits (heps : Scalar.epsilon ≤ eps)
    (h : Relation.ReflTransGen (Edit eps) empty t) :
    t.frontChild.Grown ∧ t.backChild.Grown ∧ t.IsSorted eps := by
  have hstart : (empty : Tree ℝ).IsReady ∧ (empty : Tree ℝ).IsSorted eps :=
    ⟨.inl rfl, by simp [empty, IsSorted]⟩
  have hrun : t.IsReady ∧ t.IsSorted eps := by
    induction h with
    | refl => exact hstart
    | tail _ hedit ih => exact hedit.isSorted heps ih
  exact ⟨hrun.1.grown_frontChild, hrun.1.grown_backChild, hrun.2⟩

/-- The tree of a cube, inverted and clipped by the tree of another one that has a corner in
the middle of it, with all that the other tree holds put in. -/
theorem isSorted_of_edits_cubes : Scalar.epsilon ≤ Mesh.tolerance ∧ ∃ ta tb t : Tree ℝ,
    ofPolygons Mesh.tolerance 6 (Mesh.cuboidFaces ⟨-1, -1, -1⟩ ⟨2, 2, 2⟩) = some ta ∧
      ofPolygons Mesh.tolerance 6 (Mesh.cuboidFaces ⟨0, 0, 0⟩ ⟨2, 2, 2⟩) = some tb ∧
      (ta.invert.clipTo Mesh.tolerance tb).insert Mesh.tolerance 12 tb.polygons = some t ∧
      Relation.ReflTransGen (Edit Mesh.tolerance) empty t ∧
      t.frontChild.Grown ∧ t.backChild.Grown ∧ t.IsSorted Mesh.tolerance := by
  have heps : Scalar.epsilon ≤ Mesh.tolerance := Mesh.epsilon_le_tolerance
  have hfits : ∀ o, ∀ q ∈ Mesh.cuboidFaces o ⟨2, 2, 2⟩, q.Fits Mesh.tolerance :=
    Mesh.fits_of_mem_cube (Mesh.tolerance_lt_one.trans one_lt_two)
  obtain ⟨ta, hta, ha⟩ := exists_ofPolygons heps (by simp [Facing.cuboidFaces_eq])
    (hfits ⟨-1, -1, -1⟩) (le_refl 6)
  obtain ⟨tb, htb, hb⟩ := exists_ofPolygons heps (by simp [Facing.cuboidFaces_eq])
    (hfits ⟨0, 0, 0⟩) (le_refl 6)
  have hclipped : (ta.invert.clipTo Mesh.tolerance tb).IsOperand Mesh.tolerance
      (Mesh.cuboidFaces ⟨-1, -1, -1⟩ ⟨2, 2, 2⟩) := ha.invert.clipTo heps
  obtain ⟨t, ht⟩ := hclipped.exists_insert heps hb (le_refl 12)
  have hedits : Relation.ReflTransGen (Edit Mesh.tolerance) empty t :=
    (((Relation.ReflTransGen.single (.insert hta)).tail .invert).tail (.clipTo tb)).tail
      (.insert ht)
  exact ⟨heps, ta, tb, t, hta, htb, ht, hedits, isSorted_of_edits heps hedits⟩

end Tree

end Solids
