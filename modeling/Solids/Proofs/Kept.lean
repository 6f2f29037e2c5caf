import Solids.Proofs.Clip
import Solids.Proofs.Flip
import Solids.Proofs.Volume
/-!
# Solids.Proofs.Kept

**How much of a polygon a tree keeps.** The volume of what clipping leaves of one
polygon, when every cut on its way down is decided and it is on none of the tree's
planes (`Tree.IsGeneral`).

Main statements:

* `Tree.keptVolume_add_invert` — a tree and its inverse keep the whole between them;
* `Tree.keptVolume_of_opposite` — of a polygon that is turned over as much is kept;
* `Tree.keptVolume_flip_of_mem_clipped` — what was left by a tree is left once more,
  also when it is turned over in between.

A piece that comes to lie on a plane of the tree is on a line (`Polygon.IsThin`) and
has no volume. Where it goes depends on the way it faces, and does not matter.
-/

namespace Solids

open Outline

/-! ### Polygons on a line -/

/-- The polygon is on a plane that is not its own. -/
def Polygon.IsThin (q : Polygon ℝ) : Prop :=
  ∃ p : Plane ℝ, (∀ x ∈ q.corners, p.signedDistance x = 0) ∧
    ∃ y, q.plane.signedDistance y = 0 ∧ p.signedDistance y ≠ 0

namespace Polygon

variable {q r : Polygon ℝ}

theorem IsThin.piece (h : q.IsThin) (hr : r.PieceOf q) : r.IsThin := by
  obtain ⟨p, hp, hy⟩ := h
  refine ⟨p, hr.forall_corners (t := {x | p.signedDistance x = 0}) ?_ hp, by rwa [hr.plane_eq]⟩
  simpa [Plane.signedDistance, sub_eq_zero] using Vec3.convex_level p.normal p.w

theorem IsThin.flip (h : q.IsThin) : q.flip.IsThin := by
  obtain ⟨p, hp, y, hy, hpy⟩ := h
  exact ⟨p, fun x hx => hp x (by simpa using hx), y, by simpa using hy, hpy⟩

theorem IsThin.sixfoldVolume_eq_zero (h : q.IsThin) (hq : q.IsFlat) : q.sixfoldVolume = 0 := by
  obtain ⟨p, hp, y, hy, hpy⟩ := h
  have harea : area q.plane.normal 0 q.corners = 0 := by
    cases hc : q.corners with
    | nil => rfl
    | cons x l =>
      have hx : x ∈ q.corners := by simp [hc]
      have hqx := hq.on_plane x hx
      have hpx := hp x hx
      have hdot : q.plane.normal.dot (y - x) = 0 := by
        simp only [Plane.signedDistance] at hqx hy
        rw [Vec3.dot_sub]
        linarith
      have hpdot : p.normal.dot (y - x) ≠ 0 := by
        simp only [Plane.signedDistance] at hpx hpy
        rw [Vec3.dot_sub]
        exact fun h0 => hpy (by linarith)
      have hlevel : ∀ z ∈ x :: l, q.plane.normal.dot z = q.plane.w ∧ p.normal.dot z = p.w :=
        fun z hz => ⟨hq.dot_eq z (hc ▸ hz), sub_eq_zero.mp (hp z (hc ▸ hz))⟩
      exact area_eq_zero_of_line hq.normal_ne hdot hpdot hlevel 0
  rw [sixfoldVolume_eq hq 0, harea, mul_zero, zero_div]

end Polygon

/-! ### Sides of the pieces -/

namespace Plane

variable {eps : ℝ} {p : Plane ℝ} {q r : Polygon ℝ}

theorem Decides.nonneg_of_mem_front (heps : Scalar.epsilon ≤ eps) (h : p.Decides eps q)
    (hr : r ∈ (p.split eps q).front) : ∀ x ∈ r.corners, 0 ≤ p.signedDistance x := by
  have hnonneg := Scalar.epsilon_pos.le.trans heps
  have hcorner : ∀ v ∈ q.vertices, p.sideOf eps v.pos ≠ .back → 0 ≤ p.signedDistance v.pos := by
    intro v hv hside
    have hge := neg_le_of_sideOf_ne_back hside
    rcases h v.pos (Polygon.pos_mem_corners hv) with h0 | h0
    · exact h0.ge
    · rcases lt_abs.mp h0 with h1 | h1 <;> linarith
  intro x hx
  obtain ⟨v, hv, rfl⟩ := List.mem_map.mp hx
  cases hside : p.sideOfPolygon eps q with
  | on =>
    rw [split_on hside] at hr
    split at hr <;> cases hr
  | back =>
    rw [split_back hside] at hr
    cases hr
  | front =>
    rw [split_front hside, List.mem_singleton] at hr
    subst hr
    exact hcorner v hv (sideOfAll_mem_front.mp (.inr hside) v hv)
  | across =>
    rw [split_across heps hside, List.mem_singleton] at hr
    subst hr
    obtain ⟨e, he, hve⟩ := List.mem_flatMap.mp hv
    rcases of_mem_emit heps hve with ⟨rfl, hne⟩ | ⟨-, hzero⟩
    · exact hcorner _ (mem_of_mem_edges he).1 hne
    · exact hzero.ge

@[simp] theorem decides_flip : p.flip.Decides eps q ↔ p.Decides eps q := by
  simp [Decides]

@[simp] theorem decides_flip_polygon : p.Decides eps q.flip ↔ p.Decides eps q := by
  simp [Decides]

theorem Decides.nonpos_of_mem_back (heps : Scalar.epsilon ≤ eps) (h : p.Decides eps q)
    (hr : r ∈ (p.split eps q).back) : ∀ x ∈ r.corners, p.signedDistance x ≤ 0 := by
  have hon : p.sideOfPolygon eps q ≠ .on := by
    intro hside
    rw [split_on hside] at hr
    split at hr <;> cases hr
  have hr' : r ∈ (p.flip.split eps q).front := by rwa [split_flip heps hon]
  intro x hx
  have h0 := (decides_flip.mpr h).nonneg_of_mem_front heps hr' x hx
  rw [flip_signedDistance] at h0
  linarith

end Plane

/-! ### The volume that a tree keeps -/

namespace Tree

variable {eps : ℝ} {t solid : Tree ℝ} {q r : Polygon ℝ} {polygons : List (Polygon ℝ)}

/-- The cuts that clipping a polygon makes. -/
noncomputable def clipCuts (eps : ℝ) : Tree ℝ → Polygon ℝ → List Cut
  | .absent, _ => []
  | .node none _ _ _, _ => []
  | .node (some p) _ front back, q =>
    ⟨p, q⟩ :: (((p.split eps q).onFront ++ (p.split eps q).front).flatMap (front.clipCuts eps)
      ++ ((p.split eps q).onBack ++ (p.split eps q).back).flatMap (back.clipCuts eps))

/-- Six times the volume of what clipping leaves of a polygon. -/
noncomputable def keptVolume (eps : ℝ) : Tree ℝ → Polygon ℝ → ℝ
  | .absent, _ => 0
  | .node none _ _ _, q => q.sixfoldVolume
  | .node (some p) _ front back, q =>
    (((p.split eps q).onFront ++ (p.split eps q).front).map
      (if front.isAbsent then Polygon.sixfoldVolume else front.keptVolume eps)).sum
      + (((p.split eps q).onBack ++ (p.split eps q).back).map (back.keptVolume eps)).sum

theorem sum_map_inFront (p : Plane ℝ) (f : Polygon ℝ → ℝ) (polygons : List (Polygon ℝ)) :
    ((Pieces.inFront (p.splitAll eps polygons)).map f).sum = (polygons.map fun q =>
      (((p.split eps q).onFront ++ (p.split eps q).front).map f).sum).sum := by
  induction polygons with
  | nil => rfl
  | cons q l ih =>
    rw [List.map_cons, List.sum_cons, ← ih]
    simp [Pieces.inFront, Plane.splitAll, add_assoc]

theorem sum_map_behind (p : Plane ℝ) (f : Polygon ℝ → ℝ) (polygons : List (Polygon ℝ)) :
    ((Pieces.behind (p.splitAll eps polygons)).map f).sum = (polygons.map fun q =>
      (((p.split eps q).onBack ++ (p.split eps q).back).map f).sum).sum := by
  induction polygons with
  | nil => rfl
  | cons q l ih =>
    rw [List.map_cons, List.sum_cons, ← ih]
    simp [Pieces.behind, Plane.splitAll, add_assoc]

/-- Clipping leaves of some polygons what it leaves of each. -/
theorem sixfold_clipped (polygons : List (Polygon ℝ)) :
    sixfold (t.clipped eps polygons) = (polygons.map (t.keptVolume eps)).sum := by
  induction t generalizing polygons with
  | absent => simp [clipped, keptVolume]
  | node plane own front back ihFront ihBack =>
    cases plane with
    | none => rfl
    | some p =>
      have hfront : sixfold (if front.isAbsent then
            Pieces.inFront (p.splitAll eps polygons) else [])
          + sixfold (front.clipped eps (Pieces.inFront (p.splitAll eps polygons)))
          = ((Pieces.inFront (p.splitAll eps polygons)).map
            (if front.isAbsent then Polygon.sixfoldVolume else front.keptVolume eps)).sum := by
        rw [ihFront]
        cases front with
        | absent => simp [isAbsent, keptVolume, sixfold]
        | node => simp [isAbsent]
      rw [clipped, sixfold_append, sixfold_append, ihBack, add_right_comm, hfront,
        sum_map_inFront, sum_map_behind, ← List.sum_map_add]
      rfl

/-! ### Polygons in general position -/

/-- The polygon is flat and on no plane of the tree, and every cut on its way down is
decided. -/
structure IsGeneral (eps : ℝ) (t : Tree ℝ) (q : Polygon ℝ) : Prop where
  /-- It is flat. -/
  flat : q.IsFlat
  /-- No plane of the tree is its own. -/
  apart : ∀ p ∈ t.planes, ∃ y, q.plane.signedDistance y = 0 ∧ p.signedDistance y ≠ 0
  /-- Every cut on its way down is decided. -/
  decided : ∀ c ∈ t.clipCuts eps q, c.IsDecided eps

namespace IsGeneral

variable {p : Plane ℝ} {own : List (Polygon ℝ)} {front back : Tree ℝ}

theorem decides (h : (node (some p) own front back).IsGeneral eps q) : p.Decides eps q :=
  h.decided ⟨p, q⟩ List.mem_cons_self

/-- A polygon that comes to lie on a plane is on a line. -/
theorem isThin (h : (node (some p) own front back).IsGeneral eps q)
    (hside : p.sideOfPolygon eps q = .on) : q.IsThin :=
  ⟨p, fun x hx => h.decides.eq_zero hx
    (Plane.sideOf_eq_on.mp (Plane.sideOfPolygon_eq_on.mp hside x hx)), h.apart p (by simp [planes])⟩

theorem of_mem_front (heps : Scalar.epsilon ≤ eps)
    (h : (node (some p) own front back).IsGeneral eps q)
    (hr : r ∈ (p.split eps q).onFront ++ (p.split eps q).front) : front.IsGeneral eps r := by
  have hpiece : r.PieceOf q := (Plane.isSplit_split heps p q).pieceOf r (by simp_all; tauto)
  refine ⟨h.flat.piece hpiece, fun p' hp' => ?_, fun c hc => h.decided c ?_⟩
  · rw [hpiece.plane_eq]
    exact h.apart p' (by simp [planes, hp'])
  · exact List.mem_cons_of_mem _ (List.mem_append_left _ (List.mem_flatMap.mpr ⟨r, hr, hc⟩))

theorem of_mem_back (heps : Scalar.epsilon ≤ eps)
    (h : (node (some p) own front back).IsGeneral eps q)
    (hr : r ∈ (p.split eps q).onBack ++ (p.split eps q).back) : back.IsGeneral eps r := by
  have hpiece : r.PieceOf q := (Plane.isSplit_split heps p q).pieceOf r (by simp_all; tauto)
  refine ⟨h.flat.piece hpiece, fun p' hp' => ?_, fun c hc => h.decided c ?_⟩
  · rw [hpiece.plane_eq]
    exact h.apart p' (by simp [planes, hp'])
  · exact List.mem_cons_of_mem _ (List.mem_append_right _ (List.mem_flatMap.mpr ⟨r, hr, hc⟩))

end IsGeneral

/-- Of a polygon without volume no volume is kept. -/
theorem keptVolume_of_isThin (heps : Scalar.epsilon ≤ eps) (hflat : q.IsFlat) (h : q.IsThin) :
    t.keptVolume eps q = 0 := by
  induction t generalizing q with
  | absent => rfl
  | node plane own front back ihFront ihBack =>
    cases plane with
    | none => exact h.sixfoldVolume_eq_zero hflat
    | some p =>
      have hpieces : ∀ r ∈ (p.split eps q).onFront ++ (p.split eps q).onBack
          ++ (p.split eps q).front ++ (p.split eps q).back, r.IsFlat ∧ r.IsThin := fun r hr =>
        have hpiece := (Plane.isSplit_split heps p q).pieceOf r hr
        ⟨hflat.piece hpiece, h.piece hpiece⟩
      have hfront : (((p.split eps q).onFront ++ (p.split eps q).front).map
          (if front.isAbsent then Polygon.sixfoldVolume else front.keptVolume eps)).sum = 0 := by
        refine List.sum_eq_zero fun a ha => ?_
        obtain ⟨r, hr, rfl⟩ := List.mem_map.mp ha
        obtain ⟨hrflat, hrthin⟩ := hpieces r (by simp_all; tauto)
        split
        · exact hrthin.sixfoldVolume_eq_zero hrflat
        · exact ihFront hrflat hrthin
      have hback : (((p.split eps q).onBack ++ (p.split eps q).back).map
          (back.keptVolume eps)).sum = 0 := by
        refine List.sum_eq_zero fun a ha => ?_
        obtain ⟨r, hr, rfl⟩ := List.mem_map.mp ha
        obtain ⟨hrflat, hrthin⟩ := hpieces r (by simp_all; tauto)
        exact ihBack hrflat hrthin
      rw [keptVolume, hfront, hback, add_zero]

/-- What the child in front of a node keeps, where a missing child keeps all. -/
noncomputable def keptInFront (eps : ℝ) (t : Tree ℝ) (q : Polygon ℝ) : ℝ :=
  if t.isAbsent then q.sixfoldVolume else t.keptVolume eps q

section Node

variable {p : Plane ℝ} {own : List (Polygon ℝ)} {front back : Tree ℝ}

theorem keptVolume_front (hside : p.sideOfPolygon eps q = .front) :
    (node (some p) own front back).keptVolume eps q = front.keptInFront eps q := by
  rw [keptVolume, Plane.split_front hside, keptInFront]
  split <;> simp

theorem keptVolume_back (hside : p.sideOfPolygon eps q = .back) :
    (node (some p) own front back).keptVolume eps q = back.keptVolume eps q := by
  simp [keptVolume, Plane.split_back hside]

theorem keptVolume_across (heps : Scalar.epsilon ≤ eps)
    (hside : p.sideOfPolygon eps q = .across) :
    (node (some p) own front back).keptVolume eps q
      = front.keptInFront eps (p.piece eps .back q)
        + back.keptVolume eps (p.piece eps .front q) := by
  rw [keptVolume, Plane.split_across heps hside, keptInFront]
  split <;> simp

end Node

/-! ### What a tree and its inverse keep -/

/-- A tree and its inverse keep the whole of a polygon between them. -/
theorem keptVolume_add_invert (heps : Scalar.epsilon ≤ eps) (hgrown : t.Grown)
    (hpresent : t.isAbsent = false) (h : t.IsGeneral eps q) :
    t.keptVolume eps q + t.invert.keptVolume eps q = q.sixfoldVolume := by
  induction t generalizing q with
  | absent => cases hpresent
  | node plane own front back ihFront ihBack =>
    obtain ⟨hplane, hgrownFront, hgrownBack⟩ := hgrown
    obtain ⟨p, rfl⟩ := Option.isSome_iff_exists.mp hplane
    have hflip := Plane.sideOfPolygon_flip (p := p) (Scalar.epsilon_pos.le.trans heps) q
    -- below either child the tree and its inverse keep the whole, be it missing or not
    have hfront : ∀ {r : Polygon ℝ}, front.IsGeneral eps r →
        front.keptInFront eps r + front.invert.keptVolume eps r = r.sixfoldVolume := by
      intro r hr
      rw [keptInFront]
      split
      · next habsent =>
        cases front with
        | absent => simp [invert, keptVolume]
        | node => cases habsent
      · next hpresent => exact ihFront hgrownFront (by simpa using hpresent) hr
    have hback : ∀ {r : Polygon ℝ}, back.IsGeneral eps r →
        back.keptVolume eps r + back.invert.keptInFront eps r = r.sixfoldVolume := by
      intro r hr
      rw [keptInFront, isAbsent_invert]
      split
      · next habsent =>
        cases back with
        | absent => simp [keptVolume]
        | node => cases habsent
      · next hpresent => exact ihBack hgrownBack (by simpa using hpresent) hr
    rw [invert, Option.map_some]
    cases hside : p.sideOfPolygon eps q with
    | on =>
      have hthin := h.isThin hside
      rw [keptVolume_of_isThin heps h.flat hthin, keptVolume_of_isThin heps h.flat hthin,
        hthin.sixfoldVolume_eq_zero h.flat, add_zero]
    | front =>
      rw [hside] at hflip
      rw [keptVolume_front hside, keptVolume_back hflip]
      exact hfront (h.of_mem_front heps (by simp [Plane.split_front hside]))
    | back =>
      rw [hside] at hflip
      rw [keptVolume_back hside, keptVolume_front hflip]
      exact hback (h.of_mem_back heps (by simp [Plane.split_back hside]))
    | across =>
      rw [hside] at hflip
      have hsplit := Plane.sixfold_split heps h.flat h.decides
      have hsplitFront := hfront (h.of_mem_front heps (r := p.piece eps .back q)
        (by simp [Plane.split_across heps hside]))
      have hsplitBack := hback (h.of_mem_back heps (r := p.piece eps .front q)
        (by simp [Plane.split_across heps hside]))
      rw [keptVolume_across heps hside, keptVolume_across heps hflip]
      simp only [Plane.split_across heps hside, Plane.piece, Plane.part_flip heps, Side.flip,
        List.append_nil, List.nil_append, sixfold_append, sixfold_cons, sixfold_nil] at *
      linarith

/-! ### What is kept of a polygon that is turned over -/

/-- Of a polygon that is turned over as much is kept, with the opposite sign. -/
theorem keptVolume_of_opposite (heps : Scalar.epsilon ≤ eps) (h : r.IsOpposite q)
    (hq : t.IsGeneral eps q) (hr : t.IsGeneral eps r) :
    t.keptVolume eps r = -t.keptVolume eps q := by
  induction t generalizing q r with
  | absent => simp [keptVolume]
  | node plane own front back ihFront ihBack =>
    cases plane with
    | none => exact Polygon.sixfoldVolume_eq_neg hq.flat hr.flat h.plane_eq h.corners
    | some p =>
      have hfront : ∀ {q r : Polygon ℝ}, r.IsOpposite q → front.IsGeneral eps q →
          front.IsGeneral eps r → front.keptInFront eps r = -front.keptInFront eps q := by
        intro q r h hq hr
        rw [keptInFront, keptInFront]
        split
        · exact Polygon.sixfoldVolume_eq_neg hq.flat hr.flat h.plane_eq h.corners
        · exact ihFront h hq hr
      have hsideEq : p.sideOfPolygon eps r = p.sideOfPolygon eps q := h.sideOfPolygon_eq
      cases hside : p.sideOfPolygon eps q with
      | on =>
        rw [keptVolume_of_isThin heps hr.flat (hr.isThin (hsideEq.trans hside)),
          keptVolume_of_isThin heps hq.flat (hq.isThin hside), neg_zero]
      | front =>
        rw [hside] at hsideEq
        rw [keptVolume_front hside, keptVolume_front hsideEq]
        exact hfront h (hq.of_mem_front heps (by simp [Plane.split_front hside]))
          (hr.of_mem_front heps (by simp [Plane.split_front hsideEq]))
      | back =>
        rw [hside] at hsideEq
        rw [keptVolume_back hside, keptVolume_back hsideEq]
        exact ihBack h (hq.of_mem_back heps (by simp [Plane.split_back hside]))
          (hr.of_mem_back heps (by simp [Plane.split_back hsideEq]))
      | across =>
        rw [hside] at hsideEq
        rw [keptVolume_across heps hside, keptVolume_across heps hsideEq,
          hfront (h.piece heps .back)
            (hq.of_mem_front heps (by simp [Plane.split_across heps hside]))
            (hr.of_mem_front heps (by simp [Plane.split_across heps hsideEq])),
          ihBack (h.piece heps .front)
            (hq.of_mem_back heps (by simp [Plane.split_across heps hside]))
            (hr.of_mem_back heps (by simp [Plane.split_across heps hsideEq]))]
        ring

/-! ### What is kept of what was left -/

/-- The polygon is on the way to the outside, at every node on one side of the plane. -/
def Outside : Tree ℝ → Polygon ℝ → Prop
  | .absent, _ => False
  | .node none _ _ _, _ => True
  | .node (some p) _ front back, q =>
    ((∀ x ∈ q.corners, 0 ≤ p.signedDistance x) ∧ (front.isAbsent ∨ front.Outside q)) ∨
      ((∀ x ∈ q.corners, p.signedDistance x ≤ 0) ∧ back.Outside q)

theorem Outside.flip (h : t.Outside q) : t.Outside q.flip := by
  induction t with
  | absent => cases h
  | node plane own front back ihFront ihBack =>
    cases plane with
    | none => trivial
    | some p =>
      simp only [Outside, Polygon.flip_corners, List.mem_reverse] at h ⊢
      exact h.imp (And.imp_right (Or.imp_right ihFront)) (And.imp_right ihBack)

/-- What clipping leaves is on the way to the outside, or on a line. -/
theorem isThin_or_outside_of_mem_clipped (heps : Scalar.epsilon ≤ eps)
    (hgeneral : ∀ q ∈ polygons, t.IsGeneral eps q) (hr : r ∈ t.clipped eps polygons) :
    r.IsThin ∨ t.Outside r := by
  induction t generalizing polygons with
  | absent => cases hr
  | node plane own front back ihFront ihBack =>
    cases plane with
    | none => exact .inr trivial
    | some p =>
      have hon : ∀ q ∈ polygons, ∀ s ∈ (p.split eps q).onFront ++ (p.split eps q).onBack,
          s.IsThin := by
        intro q hq s hs
        cases hside : p.sideOfPolygon eps q with
        | on =>
          have hthin := (hgeneral q hq).isThin hside
          rw [Plane.split_on hside] at hs
          split at hs <;> simp_all
        | front => simp [Plane.split_front hside] at hs
        | back => simp [Plane.split_back hside] at hs
        | across => simp [Plane.split_across heps hside] at hs
      have hfront : ∀ s ∈ Pieces.inFront (p.splitAll eps polygons), front.IsGeneral eps s ∧
          (s.IsThin ∨ ∀ x ∈ s.corners, 0 ≤ p.signedDistance x) := by
        intro s hs
        obtain ⟨q, hq, hs⟩ := Plane.mem_inFront.mp hs
        refine ⟨(hgeneral q hq).of_mem_front heps hs, ?_⟩
        rcases List.mem_append.mp hs with hs | hs
        · exact .inl (hon q hq s (List.mem_append_left _ hs))
        · exact .inr ((hgeneral q hq).decides.nonneg_of_mem_front heps hs)
      have hback : ∀ s ∈ Pieces.behind (p.splitAll eps polygons), back.IsGeneral eps s ∧
          (s.IsThin ∨ ∀ x ∈ s.corners, p.signedDistance x ≤ 0) := by
        intro s hs
        obtain ⟨q, hq, hs⟩ := Plane.mem_behind.mp hs
        refine ⟨(hgeneral q hq).of_mem_back heps hs, ?_⟩
        rcases List.mem_append.mp hs with hs | hs
        · exact .inl (hon q hq s (List.mem_append_right _ hs))
        · exact .inr ((hgeneral q hq).decides.nonpos_of_mem_back heps hs)
      simp only [clipped, List.mem_append] at hr
      rcases hr with (hr | hr) | hr
      · split at hr
        · next habsent => exact (hfront r hr).2.imp_right fun h => .inl ⟨h, .inl habsent⟩
        · cases hr
      · obtain ⟨s, hs, hrs⟩ := exists_pieceOf_clipped heps hr
        rcases ihBack (fun q hq => (hback q hq).1) hr with hthin | hout
        · exact .inl hthin
        · exact (hback s hs).2.imp (fun h => h.piece hrs) fun h =>
            .inr ⟨hrs.forall_corners (p.convex_le 0) h, hout⟩
      · obtain ⟨s, hs, hrs⟩ := exists_pieceOf_clipped heps hr
        rcases ihFront (fun q hq => (hfront q hq).1) hr with hthin | hout
        · exact .inl hthin
        · exact (hfront s hs).2.imp (fun h => h.piece hrs) fun h =>
            .inl ⟨hrs.forall_corners (p.convex_ge 0) h, .inr hout⟩

theorem Outside.keptVolume_eq (heps : Scalar.epsilon ≤ eps) (h : t.Outside q)
    (hq : t.IsGeneral eps q) : t.keptVolume eps q = q.sixfoldVolume := by
  have hpos : (0 : ℝ) < Scalar.epsilon := Scalar.epsilon_pos
  induction t with
  | absent => cases h
  | node plane own front back ihFront ihBack =>
    cases plane with
    | none => rfl
    | some p =>
      rcases h with ⟨hcorners, hfront⟩ | ⟨hcorners, hback⟩
      · have hside : p.sideOfPolygon eps q = .on ∨ p.sideOfPolygon eps q = .front := by
          refine Plane.sideOfPolygon_mem_front.mpr fun x hx hback => ?_
          linarith [hcorners x hx, Plane.sideOf_eq_back.mp hback]
        rcases hside with hside | hside
        · have hthin := hq.isThin hside
          rw [keptVolume_of_isThin heps hq.flat hthin, hthin.sixfoldVolume_eq_zero hq.flat]
        · rw [keptVolume_front hside, keptInFront]
          split
          · rfl
          · next hpresent =>
            exact ihFront (hfront.resolve_left hpresent)
              (hq.of_mem_front heps (by simp [Plane.split_front hside]))
      · have hside : p.sideOfPolygon eps q = .on ∨ p.sideOfPolygon eps q = .back := by
          refine Plane.sideOfPolygon_mem_back.mpr fun x hx hfront => ?_
          rw [Plane.sideOf_eq_front (hpos.le.trans heps)] at hfront
          linarith [hcorners x hx]
        rcases hside with hside | hside
        · have hthin := hq.isThin hside
          rw [keptVolume_of_isThin heps hq.flat hthin, hthin.sixfoldVolume_eq_zero hq.flat]
        · rw [keptVolume_back hside]
          exact ihBack hback (hq.of_mem_back heps (by simp [Plane.split_back hside]))

/-- What a tree has left is left once more, also when it is turned over in between. -/
theorem keptVolume_flip_of_mem_clipped (heps : Scalar.epsilon ≤ eps)
    (hgeneral : ∀ q ∈ polygons, t.IsGeneral eps q) (hr : r ∈ t.clipped eps polygons)
    (hflip : t.IsGeneral eps r.flip) : t.keptVolume eps r.flip = r.flip.sixfoldVolume := by
  rcases isThin_or_outside_of_mem_clipped heps hgeneral hr with hthin | hout
  · rw [keptVolume_of_isThin heps hflip.flat hthin.flip,
      hthin.flip.sixfoldVolume_eq_zero hflip.flat]
  · exact hout.flip.keptVolume_eq heps hflip

end Tree

end Solids
