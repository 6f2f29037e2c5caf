import Solids.Proofs.CleanSolid
/-!
# Solids.Proofs.SolidChain

**The chain of a convex solid.** Whichever face the plane of a node is taken from, the faces in
that plane stay at the node and all others are behind it. So the tree of the faces is a chain of
planes, each plane once, and what is inside the tree is what is behind all of them.

The plane of a node is decided by the costs of the candidates. Nothing here depends on them: the
proof takes any face there is.

Main definitions:

* `Plane.Represent` — the planes of some faces, each of them once;
* `Tree.chainOf` — the chain of some planes, with the polygons of a list at their planes.

Main statements:

* `Plane.coincides_of_not_collinear` — a plane is known from three points of it that are not on a
  line;
* `IsCleanSolid.sideOfPolygon_eq` — a face is on the plane of another one if the two planes hold
  the same points, and otherwise behind it;
* `Tree.inside_chainOf` — the solid of a chain;
* `IsCleanSolid.exists_chainOf` — the tree of a convex solid.
-/

namespace Solids

/-! ### Planes through the same points -/

namespace Vec3

/-- What runs along two planes that are not parallel runs along the line in which they meet. -/
theorem exists_smul_cross {n n' v : Vec3 ℝ} (hcross : n.cross n' ≠ 0) (h : n.dot v = 0)
    (h' : n'.dot v = 0) : ∃ t : ℝ, v = t • n.cross n' := by
  have hparallel : v.cross (n.cross n') = 0 := by
    have hexpand : v.cross (n.cross n') = n'.dot v • n - n.dot v • n' := by
      ext <;> simp [dot, cross] <;> ring
    rw [hexpand, h, h', zero_smul, zero_smul, sub_zero]
  have hratio := smul_eq_smul_of_cross_eq_zero (n.cross n') hparallel
  refine ⟨(n.cross n').dot v / (n.cross n').dot (n.cross n'), ?_⟩
  rw [div_eq_inv_mul, mul_smul, ← hratio, inv_smul_smul₀ (dot_self_pos hcross).ne']

end Vec3

namespace Plane

variable {p p' : Plane ℝ}

/-- A plane is known from three points of it that are not on a line. -/
theorem coincides_of_not_collinear {s : Set (Vec3 ℝ)} (hs : ¬ Collinear ℝ s)
    (hp : p.normal ≠ 0) (hp' : p'.normal ≠ 0) (h : ∀ y ∈ s, p.signedDistance y = 0)
    (h' : ∀ y ∈ s, p'.signedDistance y = 0) : p.Coincides p' := by
  obtain ⟨o, ho⟩ : s.Nonempty := by
    rw [Set.nonempty_iff_ne_empty]
    rintro rfl
    exact hs (collinear_empty ℝ (Vec3 ℝ))
  -- from a point of both planes, the distance is that along the normal
  have halong : ∀ y, p.signedDistance y = p.normal.dot (y - o) := fun y => by
    have hzero := h o ho
    simp only [signedDistance] at hzero ⊢
    rw [Vec3.dot_sub]
    linarith
  have halong' : ∀ y, p'.signedDistance y = p'.normal.dot (y - o) := fun y => by
    have hzero := h' o ho
    simp only [signedDistance] at hzero ⊢
    rw [Vec3.dot_sub]
    linarith
  by_cases hcross : p.normal.cross p'.normal = 0
  · intro y
    have hratio := congrArg (Vec3.dot (y - o))
      (Vec3.smul_eq_smul_of_cross_eq_zero p.normal hcross)
    rw [Vec3.dot_smul, Vec3.dot_smul, Vec3.dot_comm (y - o) p.normal,
      Vec3.dot_comm (y - o) p'.normal, ← halong, ← halong'] at hratio
    have hself := Vec3.dot_self_pos hp
    have hmixed : p.normal.dot p'.normal ≠ 0 := by
      intro hzero
      have hlost := Vec3.smul_eq_smul_of_cross_eq_zero p.normal hcross
      rw [hzero, zero_smul, eq_comm, smul_eq_zero] at hlost
      exact hlost.elim hself.ne' hp'
    constructor <;> intro hzero
    · rw [hzero, mul_zero, eq_comm, mul_eq_zero] at hratio
      exact hratio.resolve_left hself.ne'
    · rw [hzero, mul_zero, mul_eq_zero] at hratio
      exact hratio.resolve_left hmixed
  · refine absurd ((collinear_iff_of_mem ho).mpr ⟨p.normal.cross p'.normal, fun y hy => ?_⟩) hs
    obtain ⟨t, ht⟩ := Vec3.exists_smul_cross hcross ((halong y).symm.trans (h y hy))
      ((halong' y).symm.trans (h' y hy))
    exact ⟨t, by rw [← ht, vadd_eq_add, sub_add_cancel]⟩

end Plane

/-! ### The planes of faces -/

/-- The planes are those of the faces, each of them once. Planes are the same here if they hold the
same points. -/
structure Plane.Represent (planes : List (Plane ℝ)) (l : List (Polygon ℝ)) : Prop where
  /-- No two hold the same points. -/
  apart : planes.Pairwise fun p p' => ¬ p.Coincides p'
  /-- Each is the plane of a face. -/
  exists_face : ∀ p ∈ planes, ∃ q ∈ l, q.plane = p
  /-- The plane of each face is there. -/
  exists_plane : ∀ q ∈ l, ∃ p ∈ planes, q.plane.Coincides p

namespace Plane.Represent

variable {planes : List (Plane ℝ)} {l : List (Polygon ℝ)} {q : Polygon ℝ}

theorem nil : Represent [] [] := ⟨.nil, by simp, by simp⟩

open scoped Classical in
theorem not_coincides (h : Represent planes (l.filter fun r => ¬ r.plane.Coincides q.plane)) :
    ∀ p ∈ planes, ¬ q.plane.Coincides p := by
  intro p hp hsame
  obtain ⟨r, hr, rfl⟩ := h.exists_face p hp
  simp only [List.mem_filter, decide_eq_true_eq] at hr
  exact hr.2 hsame.symm

open scoped Classical in
/-- The plane of one face, and those of the faces in other planes. -/
theorem cons (hq : q ∈ l) (h : Represent planes (l.filter fun r => ¬ r.plane.Coincides q.plane)) :
    Represent (q.plane :: planes) l where
  apart := List.pairwise_cons.mpr ⟨h.not_coincides, h.apart⟩
  exists_face := by
    refine List.forall_mem_cons.mpr ⟨⟨q, hq, rfl⟩, fun p hp => ?_⟩
    obtain ⟨r, hr, hrp⟩ := h.exists_face p hp
    exact ⟨r, List.mem_of_mem_filter hr, hrp⟩
  exists_plane r hr := by
    by_cases hsame : r.plane.Coincides q.plane
    · exact ⟨q.plane, List.mem_cons_self, hsame⟩
    · obtain ⟨p, hp, hrp⟩ := h.exists_plane r (by simp [hr, hsame])
      exact ⟨p, List.mem_cons_of_mem _ hp, hrp⟩

theorem ne_nil (h : Represent planes l) (hne : l ≠ []) : planes ≠ [] := by
  obtain ⟨q, rest, rfl⟩ := List.exists_cons_of_ne_nil hne
  obtain ⟨p, hp, -⟩ := h.exists_plane q List.mem_cons_self
  exact List.ne_nil_of_mem hp

end Plane.Represent

/-! ### Chains with the faces at their planes -/

namespace Tree

variable {l m : List (Polygon ℝ)} {planes : List (Plane ℝ)} {x : Vec3 ℝ}

open scoped Classical in
/-- The chain of some planes. Each node has the polygons of the list whose plane holds the same
points, nothing in front of it, and the rest of the chain behind it. -/
noncomputable def chainOf (l : List (Polygon ℝ)) : List (Plane ℝ) → Tree ℝ
  | [] => absent
  | p :: planes =>
    node (some p) (l.filter fun q => q.plane.Coincides p) absent (chainOf l planes)

open scoped Classical in
theorem chainOf_congr (h : ∀ p ∈ planes,
    l.filter (fun q => q.plane.Coincides p) = m.filter fun q => q.plane.Coincides p) :
    chainOf l planes = chainOf m planes := by
  induction planes with
  | nil => rfl
  | cons p planes ih =>
    rw [List.forall_mem_cons] at h
    rw [chainOf, chainOf, h.1, ih h.2]

open scoped Classical in
/-- Polygons in another plane have no place in the chain. -/
theorem chainOf_filter {p : Plane ℝ} (h : ∀ p' ∈ planes, ¬ p.Coincides p') :
    chainOf (l.filter fun q => ¬ q.plane.Coincides p) planes = chainOf l planes := by
  refine chainOf_congr fun p' hp' => ?_
  rw [List.filter_filter]
  refine List.filter_congr fun q _ => ?_
  by_cases hq : q.plane.Coincides p'
  · have hother : ¬ q.plane.Coincides p := fun hsame => h p' hp' (hsame.symm.trans hq)
    simp [hq, hother]
  · simp [hq]

/-- A point that is on none of the planes is inside a chain if it is behind all of them. -/
theorem inside_chainOf (hne : planes ≠ []) (hx : ∀ p ∈ planes, p.signedDistance x ≠ 0) :
    (chainOf l planes).Inside x ↔ ∀ p ∈ planes, p.signedDistance x < 0 := by
  induction planes with
  | nil => exact absurd rfl hne
  | cons p planes ih =>
    rw [List.forall_mem_cons] at hx
    rw [chainOf, List.forall_mem_cons]
    rcases hx.1.lt_or_gt with hlt | hgt
    · rw [inside_of_neg hlt]
      cases planes with
      | nil => simp [chainOf, isAbsent, hlt]
      | cons p' planes =>
        rw [← ih (List.cons_ne_nil _ _) hx.2]
        simp [chainOf, isAbsent, hlt]
    · rw [inside_of_pos hgt]
      simp [Inside, hgt.not_gt]

end Tree

namespace IsCleanSolid

open Solids.Tree

variable {eps : ℝ} {l m : List (Polygon ℝ)} {q r : Polygon ℝ}

open scoped Classical in
/-- Of two faces, one is on the plane of the other if the planes hold the same points. Otherwise it
is behind that plane. -/
theorem sideOfPolygon_eq (h : IsCleanSolid eps l) (heps : 0 ≤ eps) (hq : q ∈ l) (hr : r ∈ l) :
    q.plane.sideOfPolygon eps r = if r.plane.Coincides q.plane then .on else .back := by
  split
  · next hsame =>
    refine Plane.sideOfPolygon_eq_on.mpr fun y hy => Plane.sideOf_eq_on.mpr ?_
    rwa [(hsame y).mp (h.own r hr y hy), abs_zero]
  · next hdiffer =>
    refine ((h.isShell heps).others q hq r hr).resolve_left fun hon => hdiffer ?_
    -- a face whose corners are all near the plane has them on it
    refine Plane.coincides_of_not_collinear (h.wide r hr) (h.normal_ne_zero hr)
      (h.normal_ne_zero hq) (h.own r hr) fun y hy => ?_
    have hnear := Plane.sideOf_eq_on.mp (Plane.sideOfPolygon_eq_on.mp hon y hy)
    exact (h.behind q hq r hr y hy).resolve_right (neg_le_of_abs_le hnear).not_gt

open scoped Classical in
/-- A node that takes the plane of a face keeps the faces in that plane, has nothing in front, and
all others behind. -/
theorem splitAll_plane (h : IsCleanSolid eps l) (heps : 0 ≤ eps) (hm : m ⊆ l) (hq : q ∈ m) :
    Pieces.onPlane (q.plane.splitAll eps m) = m.filter (fun r => r.plane.Coincides q.plane) ∧
      (q.plane.splitAll eps m).flatMap Pieces.front = [] ∧
      (q.plane.splitAll eps m).flatMap Pieces.back =
        m.filter fun r => ¬ r.plane.Coincides q.plane := by
  have hside : ∀ r ∈ m, q.plane.sideOfPolygon eps r =
      if r.plane.Coincides q.plane then .on else .back := fun r hr =>
    h.sideOfPolygon_eq heps (hm hq) (hm hr)
  obtain ⟨hown, hfront, hback⟩ := ((h.isShell heps).mono hm).splitAll_plane hq
  refine ⟨hown.trans (List.filter_congr fun r hr => ?_), hfront,
    hback.trans (List.filter_congr fun r hr => ?_)⟩ <;>
  · rw [hside r hr]
    split <;> simp_all

/-- Behind all planes of the faces is behind all faces. -/
theorem forall_represent_iff (h : IsCleanSolid eps l) (heps : 0 ≤ eps) {planes : List (Plane ℝ)}
    (hplanes : Plane.Represent planes l) (x : Vec3 ℝ) :
    (∀ p ∈ planes, p.signedDistance x < 0) ↔ ∀ q ∈ l, q.plane.signedDistance x < 0 := by
  constructor
  · intro hbehind q hq
    obtain ⟨p, hp, hsame⟩ := hplanes.exists_plane q hq
    obtain ⟨r, hr, rfl⟩ := hplanes.exists_face p hp
    obtain ⟨c, hc, -, hdistance⟩ := h.exists_pos_smul heps hq hr hsame
    rw [hdistance]
    exact mul_neg_of_pos_of_neg hc (hbehind _ hp)
  · intro hbehind p hp
    obtain ⟨q, hq, rfl⟩ := hplanes.exists_face p hp
    exact hbehind q hq

/-- Some of the faces make a chain at the node that they come to. -/
theorem exists_insert_eq_chainOf (h : IsCleanSolid eps l) (heps : 0 ≤ eps) (hm : m ⊆ l) :
    ∃ planes, Plane.Represent planes m ∧ ∀ levels, planes.length ≤ levels →
      absent.insert eps levels m = some (chainOf m planes) := by
  classical
  -- the face that a node takes its plane from does not go down
  induction hlength : m.length using Nat.strong_induction_on generalizing m with
  | _ n ih =>
    subst hlength
    cases hfaces : m with
    | nil => exact ⟨[], .nil, fun levels _ => insert_nil⟩
    | cons first rest =>
      rw [← hfaces]
      obtain ⟨q, hq, hsplitter⟩ := exists_splitter_eq eps first rest
      rw [← hfaces] at hq
      obtain ⟨hown, hfront, hback⟩ := h.splitAll_plane heps hm hq
      set behind := m.filter fun r => ¬ r.plane.Coincides q.plane with hbehind
      have hshorter : behind.length < m.length :=
        List.length_filter_lt_length_iff_exists.mpr
          ⟨q, hq, by simpa using Plane.Coincides.refl q.plane⟩
      obtain ⟨planes, hplanes, hinsert⟩ := ih behind.length hshorter
        (List.Subset.trans (List.filter_subset_self _) hm) rfl
      refine ⟨q.plane :: planes, hplanes.cons hq, fun levels hlevels => ?_⟩
      obtain ⟨levels, rfl⟩ : ∃ k, levels = k + 1 :=
        Nat.exists_eq_add_one_of_ne_zero (by simp at hlevels; omega)
      rw [hfaces]
      refine insert_cons_eq_some.mpr ⟨absent, chainOf behind planes, ?_, ?_, ?_⟩
      · rw [divider_absent, hsplitter, ← hfaces, hfront]
        exact insert_nil
      · rw [divider_absent, hsplitter, ← hfaces, hback]
        exact hinsert levels (Nat.le_of_succ_le_succ hlevels)
      · rw [divider_absent, hsplitter, ← hfaces, hown, chainOf, hbehind,
          chainOf_filter hplanes.not_coincides]
        rfl

/-- **The tree of a convex solid is a chain.** It has no front children, and one node for each set
of points that is the plane of a face. Every face is at the node of its plane, as it was. A point
that is on none of the planes is inside the tree if and only if it is behind all faces. -/
theorem exists_chainOf (h : IsCleanSolid eps l) (heps : 0 ≤ eps) (hne : l ≠ []) :
    ∃ planes, Plane.Represent planes l ∧
      (∀ levels, planes.length ≤ levels →
        ofPolygons eps levels l = some (chainOf l planes)) ∧
      ∀ x, (∀ q ∈ l, q.plane.signedDistance x ≠ 0) →
        ((chainOf l planes).Inside x ↔ ∀ q ∈ l, q.plane.signedDistance x < 0) := by
  obtain ⟨planes, hplanes, hinsert⟩ := h.exists_insert_eq_chainOf heps (List.Subset.refl l)
  refine ⟨planes, hplanes, fun levels hlevels => ?_, fun x hx => ?_⟩
  · rw [ofPolygons_eq hne]
    exact hinsert levels hlevels
  · have hoff : ∀ p ∈ planes, p.signedDistance x ≠ 0 := by
      intro p hp
      obtain ⟨q, hq, rfl⟩ := hplanes.exists_face p hp
      exact hx q hq
    rw [inside_chainOf (hplanes.ne_nil hne) hoff, h.forall_represent_iff heps hplanes]

/-- The middle of a cube is inside the tree of its faces, and a point to the right of it is not. -/
theorem exists_chainOf_cube : (0 : ℝ) ≤ Mesh.tolerance ∧
    IsCleanSolid Mesh.tolerance (Mesh.cuboidFaces ⟨0, 0, 0⟩ ⟨2, 2, 2⟩) ∧
    (Mesh.cuboidFaces ⟨0, 0, 0⟩ ⟨2, 2, 2⟩ : List (Polygon ℝ)) ≠ [] ∧
    ∃ levels t, ofPolygons Mesh.tolerance levels (Mesh.cuboidFaces ⟨0, 0, 0⟩ ⟨2, 2, 2⟩) = some t ∧
      t.Inside ⟨1, 1, 1⟩ ∧ ¬ t.Inside ⟨3, 1, 1⟩ := by
  have heps : (0 : ℝ) ≤ Mesh.tolerance := Mesh.tolerance_nonneg
  have h₀ : (0 : ℝ) ≤ 2 ∧ (0 : ℝ) ≤ 2 ∧ (0 : ℝ) ≤ 2 := by norm_num
  have hthick : ∀ d : Facing, Mesh.tolerance < d.depth ⟨2, 2, 2⟩ := fun d => by
    rw [Facing.depth_cube]
    exact Mesh.tolerance_lt_one.trans one_lt_two
  have hclean : IsCleanSolid Mesh.tolerance (Mesh.cuboidFaces ⟨0, 0, 0⟩ ⟨2, 2, 2⟩) :=
    Facing.isCleanSolid_of_thick heps Mesh.epsilon_le_two_mul_tolerance h₀ hthick
  have hne : (Mesh.cuboidFaces ⟨0, 0, 0⟩ ⟨2, 2, 2⟩ : List (Polygon ℝ)) ≠ [] := by
    simp [Facing.cuboidFaces_eq]
  have hdistance : ∀ d x, (Facing.face ⟨0, 0, 0⟩ ⟨2, 2, 2⟩ d).plane.signedDistance x =
      d.normal.dot x - d.level ⟨0, 0, 0⟩ ⟨2, 2, 2⟩ := fun d x => by
    rw [Facing.face_plane_of_thick heps Mesh.epsilon_le_two_mul_tolerance hthick]
    rfl
  have hsides : ∀ q ∈ (Mesh.cuboidFaces ⟨0, 0, 0⟩ ⟨2, 2, 2⟩ : List (Polygon ℝ)),
      q.plane.signedDistance ⟨1, 1, 1⟩ < 0 ∧ q.plane.signedDistance ⟨3, 1, 1⟩ ≠ 0 := by
    intro q hq
    obtain ⟨d, rfl⟩ := Facing.mem_cuboidFaces.mp hq
    rw [hdistance, hdistance]
    cases d <;> norm_num [Facing.normal, Facing.level, Vec3.dot, Vec3.unitX, Vec3.unitY, Vec3.unitZ]
  obtain ⟨planes, -, hbuilt, hinside⟩ := exists_chainOf hclean heps hne
  refine ⟨heps, hclean, hne, planes.length, _, hbuilt _ le_rfl, ?_, ?_⟩
  · exact (hinside _ fun q hq => (hsides q hq).1.ne).mpr fun q hq => (hsides q hq).1
  · rw [hinside _ fun q hq => (hsides q hq).2]
    intro hbehind
    have hlt := hbehind _ (Facing.mem_cuboidFaces.mpr ⟨.right, rfl⟩)
    rw [hdistance] at hlt
    norm_num [Facing.normal, Facing.level, Vec3.dot, Vec3.unitX] at hlt

end IsCleanSolid

end Solids
