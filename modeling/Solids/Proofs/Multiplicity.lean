import Solids.Proofs.Chain
/-!
# Solids.Proofs.Multiplicity

**How many polygons meet in a point.** `cover` says which points the polygons of a list
have; `countAt` says how often they have them, and so tells a face from two copies of it.

A point on a face is clear of the planes that it is far from. A plane that it is not far
from has to be that of the face: then the face goes to the side that it looks to.

Main definitions:

* `Plane.Sorts` — a point of a face is far from the plane, or the face is on it and looks
  to one of its sides;
* `Plane.Ahead` — the side that the face goes to at that point;
* `Tree.Exposes` — that the way of the face ends outside, as `Tree.Inside` says it of
  points alone.

Main statements:

* `Tree.countAt_clipTo` — clipping keeps all polygons at a point, or none;
* `Tree.countAt_insert` — building loses no polygon at a point and adds none;
* `Tree.exposes_invert` — a face is exposed by the inverse if it is not exposed by the
  solid.
-/

namespace Solids

open scoped Classical in
/-- The number of polygons of a list that have the point. -/
noncomputable def countAt (x : Vec3 ℝ) (polygons : List (Polygon ℝ)) : ℕ :=
  polygons.countP (x ∈ ·.region)

section countAt

variable {x : Vec3 ℝ} {l polygons : List (Polygon ℝ)} {q r : Polygon ℝ}

@[simp] theorem countAt_nil : countAt x [] = 0 := rfl

@[simp] theorem countAt_append : countAt x (l ++ polygons) = countAt x l + countAt x polygons :=
  List.countP_append

theorem countAt_cons : countAt x (q :: l) = countAt x [q] + countAt x l :=
  countAt_append (l := [q])

theorem countAt_singleton_of_mem (h : x ∈ q.region) : countAt x [q] = 1 := by
  simp [countAt, h]

theorem countAt_eq_zero_iff : countAt x l = 0 ↔ x ∉ cover l := by
  simp [countAt, mem_cover, List.countP_eq_zero]

theorem countAt_singleton_of_not_mem (h : x ∉ q.region) : countAt x [q] = 0 := by
  simpa [countAt_eq_zero_iff] using h

theorem countAt_of_perm (h : l.Perm polygons) : countAt x l = countAt x polygons :=
  h.countP_eq _

theorem countAt_map_flip : countAt x (l.map Polygon.flip) = countAt x l := by
  rw [countAt, List.countP_map]
  exact List.countP_congr fun q _ => by simp

/-- If only one polygon has the point, it is that one. -/
theorem eq_of_countAt_eq_one (h : countAt x l = 1) (hq : q ∈ l) (hxq : x ∈ q.region)
    (hr : r ∈ l) (hxr : x ∈ r.region) : r = q := by
  classical
  rw [countAt, List.countP_eq_length_filter, List.length_eq_one_iff] at h
  obtain ⟨s, hs⟩ := h
  have hunique : ∀ f ∈ l, x ∈ f.region → f = s := by
    intro f hf hxf
    have hmem : f ∈ l.filter (x ∈ ·.region) := List.mem_filter.mpr ⟨hf, by simpa using hxf⟩
    rwa [hs, List.mem_singleton] at hmem
  rw [hunique r hr hxr, hunique q hq hxq]

end countAt

/-! ### A face and a plane -/

namespace Plane

/-- The point is far from the plane, or the whole polygon is on it and looks to one of its
sides. -/
def Sorts (eps : ℝ) (p : Plane ℝ) (x : Vec3 ℝ) (q : Polygon ℝ) : Prop :=
  eps < |p.signedDistance x| ∨
    p.sideOfPolygon eps q = .on ∧ p.normal.dot q.plane.normal ≠ 0

/-- At the point, the polygon goes to the front of the plane: the point is far in front of
it, or the polygon is on it and looks the same way. -/
def Ahead (eps : ℝ) (p : Plane ℝ) (x : Vec3 ℝ) (q : Polygon ℝ) : Prop :=
  eps < p.signedDistance x ∨
    p.sideOfPolygon eps q = .on ∧ 0 < p.normal.dot q.plane.normal

variable {eps : ℝ} {p : Plane ℝ} {x : Vec3 ℝ} {f q r : Polygon ℝ} {polygons : List (Polygon ℝ)}

theorem abs_le_of_on (hon : p.sideOfPolygon eps q = .on) (hx : x ∈ q.region) :
    |p.signedDistance x| ≤ eps :=
  Polygon.region_subset (p.convex_abs_le eps)
    (fun y hy => sideOf_eq_on.mp (sideOfPolygon_eq_on.mp hon y hy)) hx

theorem ahead_of_on (hon : p.sideOfPolygon eps q = .on) (hx : x ∈ q.region) :
    p.Ahead eps x q ↔ 0 < p.normal.dot q.plane.normal := by
  have hle := (abs_le.mp (abs_le_of_on hon hx)).2
  simp only [Ahead, hon, hle.not_gt, false_or, true_and]

theorem ahead_of_lt (h : eps < p.signedDistance x) : p.Ahead eps x q := .inl h

theorem not_ahead_of_lt (heps : 0 ≤ eps) (hx : x ∈ q.region) (h : p.signedDistance x < -eps) :
    ¬ p.Ahead eps x q := by
  rintro (hlt | ⟨hon, -⟩)
  · linarith
  · have hge := (abs_le.mp (abs_le_of_on hon hx)).1
    linarith

theorem sideOfPolygon_eq_on_of_pieceOf (hrq : r.PieceOf q) (h : p.sideOfPolygon eps q = .on) :
    p.sideOfPolygon eps r = .on := by
  simp only [sideOfPolygon_eq_on, sideOf_eq_on] at h ⊢
  exact hrq.forall_corners (p.convex_abs_le eps) h

theorem Sorts.pieceOf (h : p.Sorts eps x q) (hrq : r.PieceOf q) : p.Sorts eps x r :=
  h.imp_right fun ⟨hon, hlooks⟩ =>
    ⟨sideOfPolygon_eq_on_of_pieceOf hrq hon, by rwa [hrq.plane_eq]⟩

/-- A piece goes where the polygon goes. -/
theorem Sorts.ahead_iff (h : p.Sorts eps x q) (hrq : r.PieceOf q) (hx : x ∈ r.region) :
    p.Ahead eps x r ↔ p.Ahead eps x q := by
  rcases h with hfar | ⟨hon, -⟩
  · -- far from the plane, neither of them is on it
    have hoff : ∀ s : Polygon ℝ, x ∈ s.region → p.sideOfPolygon eps s ≠ .on :=
      fun s hs hon => hfar.not_ge (abs_le_of_on hon hs)
    simp only [Ahead, hoff r hx, hoff q (hrq.region_subset hx), false_and]
  · rw [ahead_of_on hon (hrq.region_subset hx), hrq.plane_eq.symm,
      ahead_of_on (sideOfPolygon_eq_on_of_pieceOf hrq hon) hx]

theorem Sorts.flip (heps : 0 ≤ eps) (h : p.Sorts eps x q) : p.flip.Sorts eps x q := by
  rcases h with hfar | ⟨hon, hlooks⟩
  · exact .inl (by rwa [flip_signedDistance, abs_neg])
  · refine .inr ⟨by rw [sideOfPolygon_flip heps, hon]; rfl, ?_⟩
    rwa [flip_normal, Vec3.neg_dot, neg_ne_zero]

/-- A polygon that goes to the one side of a plane goes to the other side of the plane
turned over. -/
theorem Sorts.ahead_flip_iff (heps : 0 ≤ eps) (h : p.Sorts eps x q) (hx : x ∈ q.region) :
    p.flip.Ahead eps x q ↔ ¬ p.Ahead eps x q := by
  rcases h with hfar | ⟨hon, hlooks⟩
  · rcases lt_abs.mp hfar with hlt | hlt
    · refine iff_of_false (not_ahead_of_lt heps hx ?_) (not_not.mpr (ahead_of_lt hlt))
      rwa [flip_signedDistance, neg_lt_neg_iff]
    · refine iff_of_true (ahead_of_lt ?_) (not_ahead_of_lt heps hx (by linarith))
      rwa [flip_signedDistance]
  · have hflip : p.flip.sideOfPolygon eps q = .on := by
      rw [sideOfPolygon_flip heps, hon]
      rfl
    rw [ahead_of_on hflip hx, ahead_of_on hon hx, flip_normal, Vec3.neg_dot, neg_pos, not_lt]
    exact ⟨le_of_lt, fun hle => lt_of_le_of_ne hle hlooks⟩

/-! ### Cutting -/

open scoped Classical in
/-- Of the pieces of a polygon exactly one has the point, and it goes to one side. -/
theorem countAt_split (heps : Scalar.epsilon ≤ eps) (hq : q.IsConvex) (hx : x ∈ q.region)
    (h : p.Sorts eps x q) :
    countAt x ((p.split eps q).onFront ++ (p.split eps q).front)
        = (if p.Ahead eps x q then 1 else 0) ∧
      countAt x ((p.split eps q).onBack ++ (p.split eps q).back)
        = (if p.Ahead eps x q then 0 else 1) := by
  have hnonneg : 0 ≤ eps := Scalar.epsilon_pos.le.trans heps
  have hsplit := isSplit_split heps p q
  have hone : countAt x [q] = 1 := countAt_singleton_of_mem hx
  cases hside : p.sideOfPolygon eps q with
  | on =>
    rw [split_on hside, ahead_of_on hside hx]
    split <;> simp [hone]
  | front =>
    have hfar : eps < |p.signedDistance x| := h.resolve_right (by simp [hside])
    have hge : -eps ≤ p.signedDistance x :=
      Polygon.region_subset (p.convex_ge _) (sideOfPolygon_eq_front.mp hside).1 hx
    have hlt : eps < p.signedDistance x := (lt_abs.mp hfar).resolve_right (by linarith)
    simp [split_front hside, ahead_of_lt hlt, hone]
  | back =>
    have hfar : eps < |p.signedDistance x| := h.resolve_right (by simp [hside])
    have hle : p.signedDistance x ≤ eps :=
      Polygon.region_subset (p.convex_le _) ((sideOfPolygon_eq_back hnonneg).mp hside).1 hx
    have hlt : p.signedDistance x < -eps := by
      linarith [(lt_abs.mp hfar).resolve_left hle.not_gt]
    simp [split_back hside, not_ahead_of_lt hnonneg hx hlt, hone]
  | across =>
    have hfar : eps < |p.signedDistance x| := h.resolve_right (by simp [hside])
    obtain ⟨r, hr, hxr⟩ := hsplit.covers hq hx
    rw [split_across heps hside] at hsplit hr ⊢
    -- the piece that has the point is on its side, and the other one does not reach there
    rcases lt_abs.mp hfar with hlt | hlt
    · have hback : x ∉ (p.piece eps .front q).region := fun hxb => absurd
        (Polygon.region_subset (p.convex_le _) (hsplit.behind _ (by simp)) hxb) hlt.not_ge
      have hfront : x ∈ (p.piece eps .back q).region := by
        simp only [List.nil_append, List.mem_append, List.mem_singleton] at hr
        rcases hr with rfl | rfl
        · exact hxr
        · exact absurd hxr hback
      simp [ahead_of_lt hlt, countAt_singleton_of_mem hfront, countAt_singleton_of_not_mem hback]
    · have hlt : p.signedDistance x < -eps := by linarith
      have hfront : x ∉ (p.piece eps .back q).region := fun hxf => absurd
        (Polygon.region_subset (p.convex_ge _) (hsplit.ahead _ (by simp)) hxf) hlt.not_ge
      have hback : x ∈ (p.piece eps .front q).region := by
        simp only [List.nil_append, List.mem_append, List.mem_singleton] at hr
        rcases hr with rfl | rfl
        · exact absurd hxr hfront
        · exact hxr
      simp [not_ahead_of_lt hnonneg hx hlt, countAt_singleton_of_mem hback,
        countAt_singleton_of_not_mem hfront]

/-- The pieces of a polygon that has not got the point have not got it either. -/
theorem countAt_split_of_not_mem (heps : Scalar.epsilon ≤ eps) (hx : x ∉ q.region) :
    countAt x ((p.split eps q).onFront ++ (p.split eps q).front) = 0 ∧
      countAt x ((p.split eps q).onBack ++ (p.split eps q).back) = 0 := by
  have hpiece := (isSplit_split heps p q).pieceOf
  simp only [countAt_eq_zero_iff]
  constructor <;> rintro ⟨r, hr, hxr⟩
  · exact hx ((hpiece r (by simp at hr ⊢; tauto)).region_subset hxr)
  · exact hx ((hpiece r (by simp at hr ⊢; tauto)).region_subset hxr)

open scoped Classical in
/-- If all polygons at the point are pieces of one, they all go to the same side. -/
theorem countAt_splitAll (heps : Scalar.epsilon ≤ eps) (hf : f.IsConvex) (h : p.Sorts eps x f)
    (hpieces : ∀ q ∈ polygons, x ∈ q.region → q.PieceOf f) :
    countAt x (Pieces.inFront (p.splitAll eps polygons))
        = (if p.Ahead eps x f then countAt x polygons else 0) ∧
      countAt x (Pieces.behind (p.splitAll eps polygons))
        = (if p.Ahead eps x f then 0 else countAt x polygons) := by
  induction polygons with
  | nil => simp [Pieces.inFront, Pieces.behind]
  | cons q polygons ih =>
    rw [List.forall_mem_cons] at hpieces
    obtain ⟨ihFront, ihBehind⟩ := ih hpieces.2
    simp only [Pieces.inFront, Pieces.behind, splitAll] at ihFront ihBehind
    rw [Pieces.inFront, Pieces.behind, splitAll, List.map_cons, List.flatMap_cons,
      List.flatMap_cons, countAt_append (l := _ ++ _), ihFront, countAt_append (l := _ ++ _),
      ihBehind, countAt_cons (q := q) (l := polygons)]
    by_cases hx : x ∈ q.region
    · have hqf := hpieces.1 hx
      obtain ⟨hfront, hbehind⟩ := countAt_split heps (hqf.isConvex hf) hx (h.pieceOf hqf)
      rw [hfront, hbehind, h.ahead_iff hqf hx, countAt_singleton_of_mem hx]
      split <;> simp
    · obtain ⟨hfront, hbehind⟩ := countAt_split_of_not_mem (p := p) heps hx
      rw [hfront, hbehind, countAt_singleton_of_not_mem hx]
      simp

/-- What stays at a node and what goes down from it are as many polygons as arrived. -/
theorem countAt_onPlane_add (heps : Scalar.epsilon ≤ eps)
    (h : ∀ q ∈ polygons, x ∈ q.region → q.IsConvex ∧ p.Sorts eps x q) :
    countAt x (Pieces.onPlane (p.splitAll eps polygons))
        + countAt x ((p.splitAll eps polygons).flatMap Pieces.back)
        + countAt x ((p.splitAll eps polygons).flatMap Pieces.front) = countAt x polygons := by
  classical
  induction polygons with
  | nil => simp [Pieces.onPlane]
  | cons q polygons ih =>
    rw [List.forall_mem_cons] at h
    have ih := ih h.2
    have hq : countAt x ((p.split eps q).onFront ++ (p.split eps q).front)
        + countAt x ((p.split eps q).onBack ++ (p.split eps q).back) = countAt x [q] := by
      by_cases hx : x ∈ q.region
      · obtain ⟨hconvex, hsorts⟩ := h.1 hx
        obtain ⟨hfront, hbehind⟩ := countAt_split heps hconvex hx hsorts
        rw [hfront, hbehind, countAt_singleton_of_mem hx]
        split <;> rfl
      · obtain ⟨hfront, hbehind⟩ := countAt_split_of_not_mem (p := p) heps hx
        rw [hfront, hbehind, countAt_singleton_of_not_mem hx]
    simp only [Pieces.onPlane, splitAll, List.map_cons, List.flatMap_cons, countAt_append]
      at ih hq ⊢
    rw [countAt_cons (q := q) (l := polygons)]
    omega

end Plane

namespace Tree

variable {eps : ℝ} {levels : ℕ} {t t' solid : Tree ℝ} {polygons : List (Polygon ℝ)}
  {f r : Polygon ℝ} {x : Vec3 ℝ}

/-! ### Clipping -/

/-- At the point, the solid leaves the polygon alone: on the way down from the root, by the
side that the polygon goes to, a front child is missing at the end. -/
def Exposes (eps : ℝ) (x : Vec3 ℝ) (f : Polygon ℝ) : Tree ℝ → Prop
  | .absent => False
  | .node none _ _ _ => True
  | .node (some p) _ front back =>
    (p.Ahead eps x f ∧ (front.isAbsent ∨ front.Exposes eps x f)) ∨
      (¬ p.Ahead eps x f ∧ back.Exposes eps x f)

open scoped Classical in
/-- Clipping keeps all polygons at the point if the one that they are pieces of is exposed
there, and else none. -/
theorem countAt_clipped (heps : Scalar.epsilon ≤ eps) (hf : f.IsConvex)
    (h : ∀ p ∈ t.planes, p.Sorts eps x f)
    (hpieces : ∀ q ∈ polygons, x ∈ q.region → q.PieceOf f) :
    countAt x (t.clipped eps polygons)
      = if t.Exposes eps x f then countAt x polygons else 0 := by
  induction t generalizing polygons with
  | absent => simp [clipped, Exposes]
  | node plane own front back ihFront ihBack =>
    cases plane with
    | none => simp [clipped, Exposes]
    | some p =>
      simp only [planes, Option.toList_some, List.mem_append, List.mem_singleton] at h
      obtain ⟨hinFront, hbehind⟩ :=
        Plane.countAt_splitAll heps hf (h p (.inl (.inl rfl))) hpieces
      have hpiecesFront : ∀ r ∈ Pieces.inFront (p.splitAll eps polygons), x ∈ r.region →
          r.PieceOf f := by
        intro r hr hx
        obtain ⟨q, hq, hrq⟩ := Plane.exists_pieceOf_inFront heps hr
        exact hrq.trans (hpieces q hq (hrq.region_subset hx))
      have hpiecesBack : ∀ r ∈ Pieces.behind (p.splitAll eps polygons), x ∈ r.region →
          r.PieceOf f := by
        intro r hr hx
        obtain ⟨q, hq, hrq⟩ := Plane.exists_pieceOf_behind heps hr
        exact hrq.trans (hpieces q hq (hrq.region_subset hx))
      rw [clipped, countAt_append, countAt_append,
        ihFront (fun p hp => h p (.inl (.inr hp))) hpiecesFront,
        ihBack (fun p hp => h p (.inr hp)) hpiecesBack, hinFront, hbehind]
      by_cases hahead : p.Ahead eps x f
      · -- the front child takes all, unless it is missing
        simp only [Exposes, hahead, true_and, not_true, false_and, or_false, if_true, ite_self,
          Nat.add_zero]
        cases front with
        | absent => simp [isAbsent, Exposes, hinFront, hahead]
        | node => simp [isAbsent]
      · simp only [Exposes, hahead, false_and, not_false_eq_true, true_and, false_or, if_false,
          ite_self, Nat.add_zero]
        split <;> simp [hinFront, hahead]

open scoped Classical in
theorem countAt_clipTo (heps : Scalar.epsilon ≤ eps) (hf : f.IsConvex)
    (h : ∀ p ∈ solid.planes, p.Sorts eps x f)
    (hpieces : ∀ q ∈ t.polygons, x ∈ q.region → q.PieceOf f) :
    countAt x (t.clipTo eps solid).polygons
      = if solid.Exposes eps x f then countAt x t.polygons else 0 := by
  induction t with
  | absent => simp [clipTo]
  | node plane own front back ihFront ihBack =>
    simp only [polygons_node, List.mem_append] at hpieces
    rw [clipTo, polygons_node, polygons_node, clip_eq_clipped]
    simp only [countAt_append, countAt_clipped heps hf h fun q hq => hpieces q (.inl (.inl hq)),
      ihBack fun q hq => hpieces q (.inl (.inr hq)), ihFront fun q hq => hpieces q (.inr hq)]
    split <;> rfl

theorem countAt_invert : countAt x t.invert.polygons = countAt x t.polygons :=
  (countAt_of_perm polygons_invert).trans countAt_map_flip

/-- Either the solid exposes the polygon or its inverse does. -/
theorem exposes_invert (heps : 0 ≤ eps) (hgrown : t.Grown) (hpresent : t.isAbsent = false)
    (hx : x ∈ f.region) (h : ∀ p ∈ t.planes, p.Sorts eps x f) :
    t.invert.Exposes eps x f ↔ ¬ t.Exposes eps x f := by
  induction t with
  | absent => cases hpresent
  | node plane own front back ihFront ihBack =>
    obtain ⟨hplane, hgrownFront, hgrownBack⟩ := hgrown
    obtain ⟨p, rfl⟩ := Option.isSome_iff_exists.mp hplane
    simp only [planes, Option.toList_some, List.mem_append, List.mem_singleton] at h
    have hfront := ihFront hgrownFront
    have hback := ihBack hgrownBack
    -- turned over, the node has its children the other way round: `f` goes to the same one
    rw [invert, Option.map_some, Exposes, Exposes,
      (h p (.inl (.inl rfl))).ahead_flip_iff heps hx, isAbsent_invert]
    by_cases hahead : p.Ahead eps x f
    · cases front with
      | absent => simp [hahead, isAbsent, invert, Exposes]
      | node => simpa [hahead, isAbsent] using hfront rfl fun p hp => h p (.inl (.inr hp))
    · cases back with
      | absent => simp [hahead, isAbsent, invert, Exposes]
      | node => simpa [hahead, isAbsent] using hback rfl fun p hp => h p (.inr hp)

/-! ### Building -/

/-- An insertion neither loses a polygon at the point nor adds one. -/
theorem countAt_insert (heps : Scalar.epsilon ≤ eps)
    (hinsert : t.insert eps levels polygons = some t')
    (h : ∀ q ∈ polygons, x ∈ q.region → q.IsConvex ∧ ∀ p ∈ t'.planes, p.Sorts eps x q) :
    countAt x t'.polygons = countAt x t.polygons + countAt x polygons := by
  refine insert_induction (motive := fun _ t polygons t' =>
    (∀ q ∈ polygons, x ∈ q.region → q.IsConvex ∧ ∀ p ∈ t'.planes, p.Sorts eps x q) →
    countAt x t'.polygons = countAt x t.polygons + countAt x polygons) (by simp) ?_ hinsert h
  intro levels t first rest p front back _ ihFront ihBack h
  simp only [planes, Option.toList_some, List.mem_append, List.mem_singleton] at h
  -- what goes down is cut from what arrived, so the planes below sort it too
  have hfront : ∀ r ∈ (p.splitAll eps (first :: rest)).flatMap Pieces.front, x ∈ r.region →
      r.IsConvex ∧ ∀ p ∈ front.planes, p.Sorts eps x r := by
    intro r hr hx
    obtain ⟨q, hq, hrq⟩ := Plane.exists_pieceOf_front heps hr
    obtain ⟨hconvex, hsorts⟩ := h q hq (hrq.region_subset hx)
    exact ⟨hrq.isConvex hconvex, fun p hp => (hsorts p (.inl (.inr hp))).pieceOf hrq⟩
  have hback : ∀ r ∈ (p.splitAll eps (first :: rest)).flatMap Pieces.back, x ∈ r.region →
      r.IsConvex ∧ ∀ p ∈ back.planes, p.Sorts eps x r := by
    intro r hr hx
    obtain ⟨q, hq, hrq⟩ := Plane.exists_pieceOf_back heps hr
    obtain ⟨hconvex, hsorts⟩ := h q hq (hrq.region_subset hx)
    exact ⟨hrq.isConvex hconvex, fun p hp => (hsorts p (.inr hp)).pieceOf hrq⟩
  have hown : ∀ q ∈ first :: rest, x ∈ q.region → q.IsConvex ∧ p.Sorts eps x q := by
    intro q hq hx
    obtain ⟨hconvex, hsorts⟩ := h q hq hx
    exact ⟨hconvex, hsorts p (.inl (.inl rfl))⟩
  have hsplit := Plane.countAt_onPlane_add heps hown
  rw [polygons_eq t, polygons_node]
  simp only [countAt_append, ihFront hfront, ihBack hback]
  omega

/-! ### Chains -/

/-- A convex solid exposes what goes to the front of one of its planes. -/
theorem IsChain.exposes_iff (h : t.IsChain) :
    t.Exposes eps x f ↔ ∃ p ∈ t.planes, p.Ahead eps x f := by
  induction t with
  | absent => simp [Exposes, planes]
  | node plane own front back _ ih =>
    cases plane with
    | none => cases h
    | some p =>
      obtain ⟨rfl, hback⟩ := h
      simp only [Exposes, isAbsent, true_or, and_true, ih hback, planes, Option.toList_some,
        List.append_nil, List.mem_append, List.mem_singleton, or_and_right, exists_or,
        exists_eq_left]
      tauto

end Tree

end Solids
