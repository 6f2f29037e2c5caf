import Solids.Proofs.Build
import Solids.Proofs.Halves
import Solids.Mesh
/-!
# Solids.Proofs.Volume

**The volume between polygons and the origin**, and what becomes of it when polygons
are cut, turned over and put into trees.

Main definitions:

* `Polygon.sixfoldVolume` and `sixfold` — six times that volume, of one polygon and of
  a list. The volume of a mesh is a sixth of it;
* `Polygon.IsFlat` — every corner is exactly on the polygon's plane;
* `Plane.Decides` — no corner of a polygon is near the plane without being on it;
* `Tree.insertCuts` — the cuts that an insertion makes.

Main statements: `Plane.sixfold_split` and, with it, `Tree.sixfold_insert`.
-/

namespace Solids

open Outline

/-! ### Volumes of flat polygons -/

/-- The polygon is on a plane, and that plane is its own. -/
structure Polygon.IsFlat (q : Polygon ℝ) : Prop where
  /-- The plane has a direction. -/
  normal_ne : q.plane.normal ≠ 0
  /-- Every corner is exactly on it. -/
  on_plane : ∀ x ∈ q.corners, q.plane.signedDistance x = 0

namespace Polygon

variable {eps : ℝ} {q r : Polygon ℝ}

/-- Six times the volume between the polygon and the origin, positive if the origin is
behind it. -/
noncomputable def sixfoldVolume (q : Polygon ℝ) : ℝ :=
  (q.triangles.map Triangle.sixfoldVolume).sum

/-- The volume is that of the corners. -/
theorem sixfoldVolume_mk (vertices : List (Vertex ℝ)) (plane plane' : Plane ℝ) :
    (Polygon.mk vertices plane).sixfoldVolume = (Polygon.mk vertices plane').sixfoldVolume := by
  cases vertices <;> rfl

namespace IsFlat

theorem dot_eq (h : q.IsFlat) : ∀ x ∈ q.corners, q.plane.normal.dot x = q.plane.w :=
  fun x hx => sub_eq_zero.mp (h.on_plane x hx)

theorem fits (h : q.IsFlat) (heps : 0 ≤ eps) : q.Fits eps := fun x hx => by
  rwa [h.on_plane x hx, abs_zero]

theorem piece (h : q.IsFlat) (hr : r.PieceOf q) : r.IsFlat where
  normal_ne := by rw [hr.plane_eq]; exact h.normal_ne
  on_plane := by
    rw [hr.plane_eq]
    refine hr.forall_corners (t := {x | q.plane.signedDistance x = 0}) ?_ h.on_plane
    simpa [Plane.signedDistance, sub_eq_zero] using Vec3.convex_level q.plane.normal q.plane.w

theorem flip (h : q.IsFlat) : q.flip.IsFlat where
  normal_ne := neg_ne_zero.mpr h.normal_ne
  on_plane x hx := by
    rw [flip_corners, List.mem_reverse] at hx
    rw [flip_plane, Plane.flip_signedDistance, h.on_plane x hx, neg_zero]

end IsFlat

/-- The fan of triangles sweeps what the outline does, seen from the first corner. -/
theorem sum_turn_triangles (n : Vec3 ℝ) (first : Vertex ℝ) (rest : List (Vertex ℝ))
    (plane : Plane ℝ) :
    ((triangles ⟨first :: rest, plane⟩).map fun t => Vec3.turn n t.a.pos t.b.pos t.c.pos).sum
      = area n first.pos ((first :: rest).map Vertex.pos) := by
  have hfan : ∀ (u z : Vertex ℝ) (l : List (Vertex ℝ)),
      sweep n z.pos u.pos (l.map Vertex.pos) z.pos
        = (((u :: l).zip l).map fun e => Vec3.turn n z.pos e.1.pos e.2.pos).sum := by
    intro u z l
    induction l generalizing u with
    | nil => simp
    | cons v l ih => simp [ih]
  cases rest with
  | nil => simp [triangles, area_cons]
  | cons v rest =>
    rw [List.map_cons, area_cons, List.map_cons, sweep_cons, hfan, Vec3.turn_self_left, zero_add]
    simp [triangles, Function.comp_def]

/-- The volume under a flat polygon is its area times the height of its plane. -/
theorem dot_self_mul_sixfoldVolume (h : q.IsFlat) (o : Vec3 ℝ) :
    q.plane.normal.dot q.plane.normal * q.sixfoldVolume
      = q.plane.w * area q.plane.normal o q.corners := by
  obtain ⟨vertices, plane⟩ := q
  cases vertices with
  | nil => simp [sixfoldVolume, triangles, area, corners, Plane.edges]
  | cons first rest =>
    have hmem : ∀ t ∈ triangles ⟨first :: rest, plane⟩, ∀ v ∈ t.toList, v ∈ first :: rest := by
      intro t ht v hv
      obtain ⟨e, he, rfl⟩ := List.mem_map.mp ht
      have hzip := List.of_mem_zip he
      simp only [Triangle.toList, List.mem_cons, List.not_mem_nil, or_false] at hv
      rcases hv with rfl | rfl | rfl
      · exact List.mem_cons_self
      · exact List.mem_cons_of_mem _ hzip.1
      · exact List.mem_cons_of_mem _ (List.mem_of_mem_tail hzip.2)
    rw [area_base _ o first.pos, corners, ← sum_turn_triangles plane.normal first rest plane,
      sixfoldVolume, ← List.sum_map_mul_left, ← List.sum_map_mul_left]
    refine congrArg List.sum (List.map_congr_left fun t ht => ?_)
    have hdot : ∀ v ∈ t.toList, plane.normal.dot v.pos = plane.w := fun v hv =>
      h.dot_eq v.pos (pos_mem_corners (q := ⟨first :: rest, plane⟩) (hmem t ht v hv))
    exact Vec3.dot_self_mul_triple (hdot t.a (by simp [Triangle.toList]))
      (hdot t.b (by simp [Triangle.toList])) (hdot t.c (by simp [Triangle.toList]))

theorem sixfoldVolume_eq (h : q.IsFlat) (o : Vec3 ℝ) : q.sixfoldVolume
    = q.plane.w * area q.plane.normal o q.corners / q.plane.normal.dot q.plane.normal := by
  rw [eq_div_iff (Vec3.dot_self_pos h.normal_ne).ne', mul_comm, dot_self_mul_sixfoldVolume h o]

/-- Of two flat polygons on one plane, whose corners are the same in reverse order, the
one has the volume that the other lacks. -/
theorem sixfoldVolume_eq_neg (hq : q.IsFlat) (hr : r.IsFlat) (hplane : r.plane = q.plane.flip)
    (hcorners : r.corners.IsRotated q.corners.reverse) :
    r.sixfoldVolume = -q.sixfoldVolume := by
  rw [sixfoldVolume_eq hq 0, sixfoldVolume_eq hr 0, area_eq_of_isRotated _ _ hcorners,
    area_reverse, hplane, Plane.flip_normal, Plane.flip_w, area_neg, Vec3.neg_dot,
    Vec3.dot_comm _ (-_), Vec3.neg_dot]
  ring

@[simp] theorem sixfoldVolume_flip (h : q.IsFlat) : q.flip.sixfoldVolume = -q.sixfoldVolume :=
  sixfoldVolume_eq_neg h h.flip rfl (by rw [flip_corners])

end Polygon

/-! ### Volumes of lists -/

/-- Six times the volume between some polygons and the origin. -/
noncomputable def sixfold (polygons : List (Polygon ℝ)) : ℝ :=
  (polygons.map Polygon.sixfoldVolume).sum

@[simp] theorem sixfold_nil : sixfold [] = 0 := rfl

@[simp] theorem sixfold_cons (q : Polygon ℝ) (l : List (Polygon ℝ)) :
    sixfold (q :: l) = q.sixfoldVolume + sixfold l := List.sum_cons

@[simp] theorem sixfold_append (l r : List (Polygon ℝ)) :
    sixfold (l ++ r) = sixfold l + sixfold r := by
  simp [sixfold]

theorem sixfold_perm {l r : List (Polygon ℝ)} (h : l.Perm r) : sixfold l = sixfold r :=
  (h.map _).sum_eq

theorem sixfold_map_flip_of_forall {l : List (Polygon ℝ)}
    (h : ∀ q ∈ l, q.flip.sixfoldVolume = -q.sixfoldVolume) :
    sixfold (l.map Polygon.flip) = -sixfold l := by
  induction l with
  | nil => simp
  | cons q l ih =>
    rw [List.forall_mem_cons] at h
    rw [List.map_cons, sixfold_cons, sixfold_cons, h.1, ih h.2]
    ring

theorem sixfold_map_flip {l : List (Polygon ℝ)} (h : ∀ q ∈ l, q.IsFlat) :
    sixfold (l.map Polygon.flip) = -sixfold l :=
  sixfold_map_flip_of_forall fun q hq => Polygon.sixfoldVolume_flip (h q hq)

theorem Mesh.volume_eq (m : Mesh ℝ) : m.volume = sixfold m.polygons / 6 := by
  have hsum : ∀ l : List (Polygon ℝ),
      ((l.flatMap Polygon.triangles).map Triangle.sixfoldVolume).sum = sixfold l := by
    intro l
    induction l with
    | nil => rfl
    | cons q l ih => simp [ih, Polygon.sixfoldVolume]
  rw [volume, triangles, Scalar.sum_real, hsum, Scalar.ofNat_real, Nat.cast_ofNat]

/-! ### Cutting -/

namespace Plane

variable {eps : ℝ} {p : Plane ℝ} {q r : Polygon ℝ} {polygons : List (Polygon ℝ)}

/-- No corner is near the plane without being on it. -/
def Decides (eps : ℝ) (p : Plane ℝ) (q : Polygon ℝ) : Prop :=
  ∀ x ∈ q.corners, p.signedDistance x = 0 ∨ eps < |p.signedDistance x|

theorem Decides.eq_zero (h : p.Decides eps q) {x : Vec3 ℝ} (hx : x ∈ q.corners)
    (hnear : |p.signedDistance x| ≤ eps) : p.signedDistance x = 0 :=
  (h x hx).resolve_right hnear.not_gt

/-- Cutting a polygon that is flat on some plane leaves its volume, whatever its shape. -/
theorem sixfold_split_of_isFlat_mk (heps : Scalar.epsilon ≤ eps) {plane : Plane ℝ}
    (hq : (Polygon.mk q.vertices plane).IsFlat) (h : p.Decides eps q) :
    sixfold ((p.split eps q).onFront ++ (p.split eps q).onBack ++ (p.split eps q).front
      ++ (p.split eps q).back) = q.sixfoldVolume := by
  cases hside : p.sideOfPolygon eps q with
  | on =>
    rw [split_on hside]
    split <;> simp
  | front => simp [split_front hside]
  | back => simp [split_back hside]
  | across =>
    have hfront := hq.piece (piece_pieceOf (p := p) heps .back)
    have hback := hq.piece (piece_pieceOf (p := p) heps .front)
    obtain ⟨⟨f, hf, hfside⟩, b, hb, hbside⟩ := sideOfAll_eq_across.mp hside
    have harea := area_cutOutline_add (Scalar.epsilon_pos.le.trans heps) hq.normal_ne hq.dot_eq
      (fun x hx hon => h.eq_zero hx (sideOf_eq_on.mp hon))
      ⟨f.pos, Polygon.pos_mem_corners hf, hfside⟩ ⟨b.pos, Polygon.pos_mem_corners hb, hbside⟩ 0
    rw [piece] at hfront hback
    simp only [split_across heps hside, List.append_nil, List.nil_append, sixfold_append,
      sixfold_cons, sixfold_nil, add_zero, piece, Polygon.sixfoldVolume_mk _ q.plane plane,
      Polygon.sixfoldVolume_eq hfront 0, Polygon.sixfoldVolume_eq hback 0,
      Polygon.sixfoldVolume_eq hq 0]
    simp only [Polygon.corners, map_pos_part heps]
    rw [← add_div, ← mul_add]
    rw [Polygon.corners] at harea
    rw [harea]

/-- Cutting a flat polygon leaves its volume. -/
theorem sixfold_split (heps : Scalar.epsilon ≤ eps) (hq : q.IsFlat) (h : p.Decides eps q) :
    sixfold ((p.split eps q).onFront ++ (p.split eps q).onBack ++ (p.split eps q).front
      ++ (p.split eps q).back) = q.sixfoldVolume :=
  sixfold_split_of_isFlat_mk heps hq h

/-- Sorting polygons by a plane leaves their volume, if cutting each of them does. -/
theorem sixfold_splitAll_of_forall (h : ∀ q ∈ polygons,
    sixfold ((p.split eps q).onFront ++ (p.split eps q).onBack ++ (p.split eps q).front
      ++ (p.split eps q).back) = q.sixfoldVolume) :
    sixfold (Pieces.onPlane (p.splitAll eps polygons))
      + sixfold ((p.splitAll eps polygons).flatMap Pieces.front)
      + sixfold ((p.splitAll eps polygons).flatMap Pieces.back) = sixfold polygons := by
  induction polygons with
  | nil => simp [Pieces.onPlane]
  | cons q l ih =>
    rw [List.forall_mem_cons] at h
    have hq := h.1
    have hl := ih h.2
    simp only [Pieces.onPlane, splitAll, List.map_cons, List.flatMap_cons, sixfold_append,
      sixfold_cons] at hq hl ⊢
    linarith

/-- Sorting flat polygons by a plane leaves their volume. -/
theorem sixfold_splitAll (heps : Scalar.epsilon ≤ eps) (hflat : ∀ q ∈ polygons, q.IsFlat)
    (h : ∀ q ∈ polygons, p.Decides eps q) :
    sixfold (Pieces.onPlane (p.splitAll eps polygons))
      + sixfold ((p.splitAll eps polygons).flatMap Pieces.front)
      + sixfold ((p.splitAll eps polygons).flatMap Pieces.back) = sixfold polygons :=
  sixfold_splitAll_of_forall fun q hq => sixfold_split heps (hflat q hq) (h q hq)

end Plane

/-! ### Building -/

/-- A polygon that comes to a plane to be cut. -/
structure Cut where
  /-- The plane. -/
  plane : Plane ℝ
  /-- The polygon. -/
  polygon : Polygon ℝ

namespace Cut

/-- No corner of the polygon is near the plane without being on it. -/
def IsDecided (eps : ℝ) (c : Cut) : Prop := c.plane.Decides eps c.polygon

end Cut

namespace Tree

variable {eps : ℝ} {levels : ℕ} {t t' : Tree ℝ} {polygons : List (Polygon ℝ)}

/-- The cuts that an insertion makes. -/
noncomputable def insertCuts (eps : ℝ) : ℕ → Tree ℝ → List (Polygon ℝ) → List Cut
  | _, _, [] => []
  | 0, _, _ :: _ => []
  | levels + 1, t, first :: rest =>
    let plane := t.divider eps first rest
    let pieces := plane.splitAll eps (first :: rest)
    (first :: rest).map (Cut.mk plane)
      ++ insertCuts eps levels t.frontChild (pieces.flatMap Pieces.front)
      ++ insertCuts eps levels t.backChild (pieces.flatMap Pieces.back)

/-- An insertion adds the volume of what is inserted. -/
theorem sixfold_insert (heps : Scalar.epsilon ≤ eps) (h : t.insert eps levels polygons = some t')
    (hflat : ∀ q ∈ polygons, q.IsFlat)
    (hcuts : ∀ c ∈ insertCuts eps levels t polygons, c.IsDecided eps) :
    sixfold t'.polygons = sixfold t.polygons + sixfold polygons := by
  refine insert_induction (motive := fun levels t polygons t' => (∀ q ∈ polygons, q.IsFlat) →
    (∀ c ∈ insertCuts eps levels t polygons, c.IsDecided eps) →
    sixfold t'.polygons = sixfold t.polygons + sixfold polygons) (by simp) ?_ h hflat hcuts
  rintro levels t first rest p front back rfl ihFront ihBack hflat hcuts
  simp only [insertCuts, List.mem_append, or_imp, forall_and] at hcuts
  obtain ⟨⟨hroot, hcutsFront⟩, hcutsBack⟩ := hcuts
  have hfront := ihFront (fun r hr => by
    obtain ⟨q, hq, hrq⟩ := Plane.exists_pieceOf_front heps hr
    exact (hflat q hq).piece hrq) hcutsFront
  have hback := ihBack (fun r hr => by
    obtain ⟨q, hq, hrq⟩ := Plane.exists_pieceOf_back heps hr
    exact (hflat q hq).piece hrq) hcutsBack
  have hsplit := Plane.sixfold_splitAll (p := t.divider eps first rest) heps hflat
    (fun q hq => hroot _ (List.mem_map_of_mem hq))
  rw [← hsplit, polygons_eq t, polygons_node]
  simp only [sixfold_append, hfront, hback]
  ring

end Tree

end Solids
