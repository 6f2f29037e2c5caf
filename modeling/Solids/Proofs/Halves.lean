import Solids.Proofs.Area
import Solids.Proofs.Cut
/-!
# Solids.Proofs.Halves

**How a plane divides the area of an outline.** The outline may have any shape.

The positions of the corners of a part are those of the outline that are kept, and
what is `between` two of its corners. Run backwards, the outline gives the same
parts, run backwards.

Main statement: `Plane.area_cutOutline_add`. The areas of the two parts add up, if no
corner is near the plane without being on it. The edges that a part has in the plane
are all on one line, and seen from a point of that line they sweep nothing.
-/

namespace Solids.Plane

open Outline Vec3

variable {eps : ℝ} {p : Plane ℝ} {away : Side} {n o u v z : Vec3 ℝ}

/-! ### Parts by position -/

/-- The corner, unless it is on the side `away`. -/
noncomputable def keep (eps : ℝ) (p : Plane ℝ) (away : Side) (v : Vec3 ℝ) : List (Vec3 ℝ) :=
  if p.sideOf eps v = away then [] else [v]

/-- The crossing of an edge, if there is one. -/
noncomputable def crossings (eps : ℝ) (p : Plane ℝ) (u v : Vec3 ℝ) : List (Vec3 ℝ) :=
  if (p.sideOf eps u).join (p.sideOf eps v) = .across then [p.meet u v] else []

/-- What a part has on the way from `u` through `mid` to `z`, the two ends left out. -/
noncomputable def between (eps : ℝ) (p : Plane ℝ) (away : Side) :
    Vec3 ℝ → List (Vec3 ℝ) → Vec3 ℝ → List (Vec3 ℝ)
  | u, [], z => p.crossings eps u z
  | u, v :: mid, z => p.crossings eps u v ++ p.keep eps away v ++ between eps p away v mid z

/-- The positions of the corners of the part that is not on the side `away`. -/
noncomputable def cutOutline (eps : ℝ) (p : Plane ℝ) (away : Side) : List (Vec3 ℝ) → List (Vec3 ℝ)
  | [] => []
  | u :: mid => p.keep eps away u ++ p.between eps away u mid u

theorem map_pos_emit (heps : Scalar.epsilon ≤ eps) (a b : Vertex ℝ) :
    (p.emit eps away (a, b)).map Vertex.pos
      = p.keep eps away a.pos ++ p.crossings eps a.pos b.pos := by
  have hcrossing : (p.crossing? (p.sided eps a) (p.sided eps b)).toList.map Vertex.pos
      = p.crossings eps a.pos b.pos := by
    unfold crossings
    split
    · next h =>
      obtain ⟨x, hx, hpos⟩ := exists_crossing?_eq heps h
      rw [hx, Option.toList_some, List.map_singleton, hpos]
    · next h => rw [crossing?_eq_none h, Option.toList_none, List.map_nil]
  rw [emit, List.map_append, hcrossing, keep]
  split <;> rfl

theorem map_pos_part (heps : Scalar.epsilon ≤ eps) (l : List (Vertex ℝ)) :
    (p.part eps away l).map Vertex.pos = p.cutOutline eps away (l.map Vertex.pos) := by
  have hwalk : ∀ (a : Vertex ℝ) (mid : List (Vertex ℝ)) (b : Vertex ℝ),
      ((walk a mid b).flatMap (p.emit eps away)).map Vertex.pos
        = p.keep eps away a.pos ++ p.between eps away a.pos (mid.map Vertex.pos) b.pos := by
    intro a mid b
    induction mid generalizing a with
    | nil => simp [between, map_pos_emit heps]
    | cons c mid ih => simp [between, map_pos_emit heps, ih]
  cases l with
  | nil => rfl
  | cons a mid => exact hwalk a mid a

/-! ### Parts of outlines begun elsewhere and run backwards -/

theorem between_append (u v z : Vec3 ℝ) (mid mid' : List (Vec3 ℝ)) :
    p.between eps away u (mid ++ v :: mid') z
      = p.between eps away u mid v ++ p.keep eps away v ++ p.between eps away v mid' z := by
  induction mid generalizing u with
  | nil => rfl
  | cons w mid ih => simp [between, ih]

theorem crossings_comm (u v : Vec3 ℝ) : p.crossings eps v u = p.crossings eps u v := by
  rw [crossings, crossings, Side.join_comm, meet_comm]

@[simp] theorem reverse_keep (v : Vec3 ℝ) : (p.keep eps away v).reverse = p.keep eps away v := by
  unfold keep
  split <;> rfl

@[simp] theorem reverse_crossings (u v : Vec3 ℝ) :
    (p.crossings eps u v).reverse = p.crossings eps u v := by
  unfold crossings
  split <;> rfl

theorem between_reverse (u z : Vec3 ℝ) (mid : List (Vec3 ℝ)) :
    p.between eps away z mid.reverse u = (p.between eps away u mid z).reverse := by
  induction mid generalizing u with
  | nil => rw [List.reverse_nil, between, between, reverse_crossings, crossings_comm]
  | cons v mid ih =>
    rw [List.reverse_cons, between_append, ih, between, between, crossings_comm]
    simp

theorem cutOutline_isRotated {l r : List (Vec3 ℝ)} (h : l.IsRotated r) :
    (p.cutOutline eps away l).IsRotated (p.cutOutline eps away r) := by
  obtain ⟨l₁, l₂, rfl, rfl⟩ := exists_append_of_isRotated h
  cases l₁ with
  | nil => rw [List.append_nil, List.nil_append]
  | cons u mid =>
    cases l₂ with
    | nil => rw [List.append_nil, List.nil_append]
    | cons v mid' =>
      simp only [List.cons_append, cutOutline, between_append]
      have hrot : ((p.keep eps away u ++ p.between eps away u mid v) ++
          (p.keep eps away v ++ p.between eps away v mid' u)).IsRotated _ := List.isRotated_append
      simpa using hrot

/-- An outline run backwards gives the same part, run backwards. -/
theorem cutOutline_reverse (l : List (Vec3 ℝ)) :
    (p.cutOutline eps away l.reverse).IsRotated (p.cutOutline eps away l).reverse := by
  cases l with
  | nil => exact List.IsRotated.refl _
  | cons u mid =>
    refine (cutOutline_isRotated (isRotated_cons_reverse u mid)).trans ?_
    rw [cutOutline, cutOutline, between_reverse, List.reverse_append, reverse_keep]
    exact List.isRotated_append

/-! ### Areas of parts -/

/-- Where a part is when the outline is at a corner: there, or at `o` while the corner
is on the side `away`. -/
noncomputable def stand (eps : ℝ) (p : Plane ℝ) (away : Side) (o v : Vec3 ℝ) : Vec3 ℝ :=
  if p.sideOf eps v = away then o else v

/-- What a part sweeps along one edge of the outline. -/
noncomputable def share (eps : ℝ) (p : Plane ℝ) (away : Side) (n o : Vec3 ℝ)
    (e : Vec3 ℝ × Vec3 ℝ) : ℝ :=
  sweep n o (p.stand eps away o e.1) (p.crossings eps e.1 e.2) (p.stand eps away o e.2)

theorem stand_of_eq (h : p.sideOf eps v = away) : p.stand eps away o v = o := if_pos h

theorem stand_of_ne (h : p.sideOf eps v ≠ away) : p.stand eps away o v = v := if_neg h

/-- An edge that does not cross the plane and is on the side `away` at one end is on
the plane at the other one, if not on that side too. -/
theorem on_of_join_ne_across (haway : away ≠ .on) (hu : p.sideOf eps u = away)
    (h : (p.sideOf eps u).join (p.sideOf eps v) ≠ .across) (hv : p.sideOf eps v ≠ away) :
    p.sideOf eps v = .on := by
  have huacross : p.sideOf eps u ≠ .across := sideOf_ne_across u
  subst hu
  cases hsu : p.sideOf eps u <;> cases hsv : p.sideOf eps v <;> simp_all [Side.join]

/-- Points of an outline, those near the plane being on it and, seen from `o`, on one
line. -/
structure IsLevel (eps : ℝ) (p : Plane ℝ) (n o : Vec3 ℝ) (l : List (Vec3 ℝ)) : Prop where
  /-- All points are equally far along `n`. -/
  level : ∀ x ∈ l, n.dot x = n.dot o
  /-- A point near the plane is on it. -/
  exact_of_on : ∀ x ∈ l, p.sideOf eps x = .on → p.signedDistance x = 0
  /-- Two points of the plane and `o` span no area. -/
  thin : ∀ x y, n.dot x = n.dot o → n.dot y = n.dot o → p.signedDistance x = 0 →
    p.signedDistance y = 0 → turn n o x y = 0

namespace IsLevel

variable {l r mid : List (Vec3 ℝ)}

theorem mono (h : IsLevel eps p n o l) (hr : ∀ x ∈ r, x ∈ l) : IsLevel eps p n o r :=
  ⟨fun x hx => h.level x (hr x hx), fun x hx => h.exact_of_on x (hr x hx), h.thin⟩

theorem dot_meet (h : IsLevel eps p n o [u, v]) (heps : 0 ≤ eps)
    (hacross : (p.sideOf eps u).join (p.sideOf eps v) = .across) :
    n.dot (p.meet u v) = n.dot o ∧ p.signedDistance (p.meet u v) = 0 :=
  ⟨(convex_level n (n.dot o)).segment_subset (h.level u (by simp)) (h.level v (by simp))
    (meet_mem_segment heps hacross),
    signedDistance_meet (signedDistance_ne_of_join_eq_across heps hacross)⟩

/-- While the outline is on the side `away`, it does not matter from where on the line
the part goes on. -/
theorem sweep_between (heps : 0 ≤ eps) (haway : away ≠ .on)
    (h : IsLevel eps p n o (v :: mid ++ [z])) (hv : p.sideOf eps v = away) {x : Vec3 ℝ}
    (hx : n.dot x = n.dot o) (hpx : p.signedDistance x = 0) :
    sweep n o x (p.between eps away v mid z) (p.stand eps away o z)
      = sweep n o o (p.between eps away v mid z) (p.stand eps away o z) := by
  induction mid generalizing v with
  | nil =>
    by_cases hacross : (p.sideOf eps v).join (p.sideOf eps z) = .across
    · obtain ⟨hm, hpm⟩ := h.dot_meet heps hacross
      rw [between, crossings, if_pos hacross, sweep_cons, sweep_cons, h.thin x _ hx hm hpx hpm,
        turn_self_left]
    · rw [between, crossings, if_neg hacross, sweep_nil, sweep_nil, turn_self_left]
      by_cases hz : p.sideOf eps z = away
      · rw [stand, if_pos hz, turn_self_ends]
      · have hzon := on_of_join_ne_across haway hv hacross hz
        rw [stand, if_neg hz]
        exact h.thin x z hx (h.level z (by simp)) hpx (h.exact_of_on z (by simp) hzon)
  | cons w mid ih =>
    by_cases hacross : (p.sideOf eps v).join (p.sideOf eps w) = .across
    · obtain ⟨hm, hpm⟩ := (h.mono (r := [v, w]) (by simp)).dot_meet heps hacross
      simp only [between, crossings, if_pos hacross, List.cons_append, List.nil_append, sweep_cons,
        h.thin x _ hx hm hpx hpm, turn_self_left]
    · rw [between, crossings, if_neg hacross, List.nil_append]
      by_cases hw : p.sideOf eps w = away
      · rw [keep, if_pos hw, List.nil_append]
        exact ih (h.mono fun y hy => List.mem_cons_of_mem v hy) hw
      · have hwon := on_of_join_ne_across haway hv hacross hw
        rw [keep, if_neg hw, List.singleton_append, sweep_cons, sweep_cons, turn_self_left,
          h.thin x w hx (h.level w (by simp)) hpx (h.exact_of_on w (by simp) hwon)]

/-- What a part sweeps is the sum of what it sweeps along each edge. -/
theorem sweep_stand_between (heps : 0 ≤ eps) (haway : away ≠ .on)
    (h : IsLevel eps p n o (u :: mid ++ [z])) :
    sweep n o (p.stand eps away o u) (p.between eps away u mid z) (p.stand eps away o z)
      = ((walk u mid z).map (p.share eps away n o)).sum := by
  induction mid generalizing u with
  | nil => simp [between, share]
  | cons v mid ih =>
    have hrest : IsLevel eps p n o (v :: mid ++ [z]) :=
      h.mono fun y hy => List.mem_cons_of_mem u hy
    rw [walk_cons, List.map_cons, List.sum_cons, ← ih hrest, between, share]
    by_cases hv : p.sideOf eps v = away
    · -- the part waits on the line; it may as well wait at `o`
      rw [keep, if_pos hv, List.append_nil, stand_of_eq hv]
      by_cases hacross : (p.sideOf eps u).join (p.sideOf eps v) = .across
      · obtain ⟨hm, hpm⟩ := (h.mono (r := [u, v]) (by simp)).dot_meet heps hacross
        rw [crossings, if_pos hacross, List.singleton_append, sweep_cons, sweep_cons, sweep_nil,
          hrest.sweep_between heps haway hv hm hpm, turn_self_ends, add_zero]
      · rw [crossings, if_neg hacross, List.nil_append, sweep_nil, turn_self_ends, zero_add]
        by_cases hu : p.sideOf eps u = away
        · rw [stand_of_eq hu]
        · have huon := on_of_join_ne_across haway hv (by rwa [Side.join_comm]) hu
          rw [stand_of_ne hu]
          exact hrest.sweep_between heps haway hv (h.level u (by simp))
            (h.exact_of_on u (by simp) huon)
    · rw [keep, if_neg hv, stand_of_ne hv, List.append_assoc, List.singleton_append, sweep_append]

/-- The area of a part that has a corner of the outline, edge by edge. -/
theorem area_cutOutline (heps : 0 ≤ eps) (haway : away ≠ .on) (h : IsLevel eps p n o l)
    (hkept : ∃ x ∈ l, p.sideOf eps x ≠ away) :
    area n o (p.cutOutline eps away l) = ((edges l).map (p.share eps away n o)).sum := by
  obtain ⟨u, hu, hside⟩ := hkept
  obtain ⟨l₁, l₂, rfl⟩ := List.append_of_mem hu
  have hrot : (l₁ ++ u :: l₂).IsRotated (u :: (l₂ ++ l₁)) := List.isRotated_append
  rw [area_eq_of_isRotated n o (cutOutline_isRotated hrot),
    ((edges_perm_of_isRotated hrot).map _).sum_eq, edges_cons,
    ← sweep_stand_between heps haway (h.mono (by simp; tauto)), stand_of_ne hside, cutOutline,
    keep, if_neg hside]
  rfl

/-- What both parts sweep along an edge is what the outline does. -/
theorem share_add_share (heps : 0 ≤ eps) (h : IsLevel eps p n o [u, v]) :
    p.share eps .back n o (u, v) + p.share eps .front n o (u, v) = turn n o u v := by
  have hu : p.sideOf eps u ≠ .across := sideOf_ne_across u
  have hv : p.sideOf eps v ≠ .across := sideOf_ne_across v
  by_cases hacross : (p.sideOf eps u).join (p.sideOf eps v) = .across
  · have hmeet := turn_add_of_mem_segment (n := n) (o := o) (meet_mem_segment heps hacross)
    simp only [share, stand, crossings, if_pos hacross, sweep_cons, sweep_nil]
    cases hsu : p.sideOf eps u <;> cases hsv : p.sideOf eps v <;> simp_all [Side.join]
    linarith
  · simp only [share, stand, crossings, if_neg hacross, sweep_nil]
    by_cases hon : p.sideOf eps u = .on ∧ p.sideOf eps v = .on
    · have hzero := h.thin u v (h.level u (by simp)) (h.level v (by simp))
        (h.exact_of_on u (by simp) hon.1) (h.exact_of_on v (by simp) hon.2)
      simp [hon.1, hon.2, hzero]
    · cases hsu : p.sideOf eps u <;> cases hsv : p.sideOf eps v <;> simp_all [Side.join]

end IsLevel

/-- **A plane divides the area.** The two parts of an outline that lies across a plane
have its area between them, if no corner is near the plane without being on it. -/
theorem area_cutOutline_add {l : List (Vec3 ℝ)} {c : ℝ} (heps : 0 ≤ eps) (hn : n ≠ 0)
    (hlevel : ∀ x ∈ l, n.dot x = c)
    (hexact : ∀ x ∈ l, p.sideOf eps x = .on → p.signedDistance x = 0)
    (hfront : ∃ x ∈ l, p.sideOf eps x = .front) (hback : ∃ x ∈ l, p.sideOf eps x = .back)
    (o : Vec3 ℝ) :
    area n o (p.cutOutline eps .back l) + area n o (p.cutOutline eps .front l) = area n o l := by
  obtain ⟨f, hf, hfside⟩ := hfront
  obtain ⟨b, hb, hbside⟩ := hback
  have hacross : (p.sideOf eps f).join (p.sideOf eps b) = .across := by
    rw [hfside, hbside]
    rfl
  have hne := signedDistance_ne_of_join_eq_across heps hacross
  have hpo : p.signedDistance (p.meet f b) = 0 := signedDistance_meet hne
  have hno : n.dot (p.meet f b) = c := (convex_level n c).segment_subset (hlevel f hf) (hlevel b hb)
    (meet_mem_segment heps hacross)
  have h : IsLevel eps p n (p.meet f b) l := by
    refine ⟨fun x hx => (hlevel x hx).trans hno.symm, hexact, fun x y hnx hny hpx hpy => ?_⟩
    simp only [signedDistance, sub_eq_zero] at hpx hpy hpo
    refine turn_eq_zero_of_line (m := p.normal) (d := f - b) hn ?_ ?_ hnx hny
      (hpx.trans hpo.symm) (hpy.trans hpo.symm)
    · rw [dot_sub, hlevel f hf, hlevel b hb, sub_self]
    · rw [dot_sub]
      simp only [signedDistance] at hne
      exact fun h0 => hne (by linarith)
  rw [area_base n o (p.meet f b), area_base n o (p.meet f b), area_base n o (p.meet f b),
    h.area_cutOutline heps (by simp) ⟨f, hf, by simp [hfside]⟩,
    h.area_cutOutline heps (by simp) ⟨b, hb, by simp [hbside]⟩, ← List.sum_map_add]
  refine congrArg List.sum (List.map_congr_left fun e he => ?_)
  have hmem := mem_of_mem_edges he
  exact IsLevel.share_add_share heps (h.mono (by simp [hmem.1, hmem.2]))

end Solids.Plane
