import Solids.Proofs.Region
/-!
# Solids.Proofs.Cut

**Cutting a polygon by a plane.** What the pieces are, as sets of points.

Main statements:

* `Plane.split_across` — a polygon that lies across is cut in two pieces, never
  fewer: either one has at least three corners;
* `Plane.pieceOf_of_mem_split`, `Plane.le_of_mem_front`, `Plane.le_of_mem_back` — a
  piece is a part of the polygon and, up to the tolerance, on its own side;
* `Plane.region_subset_cover_split` — the pieces of a convex polygon leave nothing
  of it out, the points within the tolerance included.

A piece is read off edge by edge: `Plane.emit` is what one edge adds to it, and
`Plane.part` what the whole outline gives.
-/

namespace Solids

open Outline

/-! ### Sides -/

namespace Side

theorem join_eq_on {s t : Side} : s.join t = .on ↔ s = .on ∧ t = .on := by
  cases s <;> cases t <;> simp [join]

theorem join_mem_front {s t : Side} :
    (s.join t = .on ∨ s.join t = .front) ↔
      (s = .on ∨ s = .front) ∧ (t = .on ∨ t = .front) := by
  cases s <;> cases t <;> simp [join]

theorem join_mem_back {s t : Side} :
    (s.join t = .on ∨ s.join t = .back) ↔ (s = .on ∨ s = .back) ∧ (t = .on ∨ t = .back) := by
  cases s <;> cases t <;> simp [join]

/-- On a way from one side to the other, what is not across the first side yet is
still across the last one. -/
theorem join_eq_across_of_ne {s t u : Side} (h : s.join t = .across) (hs : s ≠ .across)
    (ht : t ≠ .across) (hu : u ≠ .on) (hsu : s.join u ≠ .across) : u.join t = .across := by
  cases s <;> cases t <;> cases u <;> simp_all [join]

end Side

namespace Plane

variable {eps : ℝ} {p : Plane ℝ}

theorem sideOf_eq (x : Vec3 ℝ) : p.sideOf eps x =
    if p.signedDistance x < -eps then .back else if eps < p.signedDistance x then .front else .on :=
  rfl

theorem sideOf_eq_back {x : Vec3 ℝ} : p.sideOf eps x = .back ↔ p.signedDistance x < -eps := by
  rw [sideOf_eq]
  split_ifs <;> simp_all

theorem sideOf_eq_front (heps : 0 ≤ eps) {x : Vec3 ℝ} :
    p.sideOf eps x = .front ↔ eps < p.signedDistance x := by
  rw [sideOf_eq]
  split_ifs with hback hfront
  · simp only [false_iff]
    linarith
  · simpa using hfront
  · simpa using hfront

theorem sideOf_eq_on {x : Vec3 ℝ} : p.sideOf eps x = .on ↔ |p.signedDistance x| ≤ eps := by
  rw [sideOf_eq, abs_le]
  split_ifs with hback hfront
  · simp only [false_iff]
    exact fun h => absurd h.1 (not_le.mpr hback)
  · simp only [false_iff]
    exact fun h => absurd h.2 (not_le.mpr hfront)
  · simp only [true_iff]
    exact ⟨not_lt.mp hback, not_lt.mp hfront⟩

theorem sideOf_ne_across (x : Vec3 ℝ) : p.sideOf eps x ≠ .across := by
  rw [sideOf_eq]
  split_ifs <;> simp

theorem neg_le_of_sideOf_ne_back {x : Vec3 ℝ} (h : p.sideOf eps x ≠ .back) :
    -eps ≤ p.signedDistance x := not_lt.mp fun hlt => h (sideOf_eq_back.mpr hlt)

theorem le_of_sideOf_ne_front (heps : 0 ≤ eps) {x : Vec3 ℝ} (h : p.sideOf eps x ≠ .front) :
    p.signedDistance x ≤ eps := not_lt.mp fun hlt => h ((sideOf_eq_front heps).mpr hlt)

@[simp] theorem sideOfAll_nil : p.sideOfAll eps [] = .on := rfl

@[simp] theorem sideOfAll_cons (v : Vertex ℝ) (l : List (Vertex ℝ)) :
    p.sideOfAll eps (v :: l) = (p.sideOf eps v.pos).join (p.sideOfAll eps l) := by
  have hfold : ∀ (l : List (Vertex ℝ)) (s : Side),
      l.foldl (fun s v => s.join (p.sideOf eps v.pos)) s
        = s.join (l.foldl (fun s v => s.join (p.sideOf eps v.pos)) .on) := by
    intro l
    induction l with
    | nil => simp
    | cons w l ih =>
      intro s
      rw [List.foldl_cons, List.foldl_cons, ih, ih (Side.join .on _), Side.on_join,
        Side.join_assoc]
  unfold sideOfAll
  rw [List.foldl_cons, hfold, Side.on_join]

/-- Nothing is behind the plane. -/
theorem sideOfAll_mem_front {l : List (Vertex ℝ)} :
    (p.sideOfAll eps l = .on ∨ p.sideOfAll eps l = .front) ↔
      ∀ v ∈ l, p.sideOf eps v.pos ≠ .back := by
  induction l with
  | nil => simp
  | cons v l ih =>
    rw [sideOfAll_cons, Side.join_mem_front, ih, List.forall_mem_cons]
    have hv : p.sideOf eps v.pos ≠ .across := sideOf_ne_across v.pos
    refine and_congr_left fun _ => ?_
    cases h : p.sideOf eps v.pos <;> simp_all

/-- Nothing is in front of the plane. -/
theorem sideOfAll_mem_back {l : List (Vertex ℝ)} :
    (p.sideOfAll eps l = .on ∨ p.sideOfAll eps l = .back) ↔
      ∀ v ∈ l, p.sideOf eps v.pos ≠ .front := by
  induction l with
  | nil => simp
  | cons v l ih =>
    rw [sideOfAll_cons, Side.join_mem_back, ih, List.forall_mem_cons]
    have hv : p.sideOf eps v.pos ≠ .across := sideOf_ne_across v.pos
    refine and_congr_left fun _ => ?_
    cases h : p.sideOf eps v.pos <;> simp_all

theorem sideOfAll_eq_on {l : List (Vertex ℝ)} :
    p.sideOfAll eps l = .on ↔ ∀ v ∈ l, p.sideOf eps v.pos = .on := by
  induction l with
  | nil => simp
  | cons v l ih => rw [sideOfAll_cons, Side.join_eq_on, ih, List.forall_mem_cons]

/-- A polygon lies across the plane when it has corners on both sides. -/
theorem sideOfAll_eq_across {l : List (Vertex ℝ)} :
    p.sideOfAll eps l = .across ↔
      (∃ v ∈ l, p.sideOf eps v.pos = .front) ∧ ∃ v ∈ l, p.sideOf eps v.pos = .back := by
  have hfront : (p.sideOfAll eps l = .on ∨ p.sideOfAll eps l = .front) ↔ _ := sideOfAll_mem_front
  have hback : (p.sideOfAll eps l = .on ∨ p.sideOfAll eps l = .back) ↔ _ := sideOfAll_mem_back
  constructor
  · intro h
    rw [h] at hfront hback
    simp only [reduceCtorEq, or_self, false_iff, not_forall, not_not, exists_prop] at hfront hback
    exact ⟨hback, hfront⟩
  · rintro ⟨⟨v, hv, hvf⟩, w, hw, hwb⟩
    cases h : p.sideOfAll eps l with
    | on => exact absurd hwb (hfront.mp (.inl h) w hw)
    | front => exact absurd hwb (hfront.mp (.inr h) w hw)
    | back => exact absurd hvf (hback.mp (.inr h) v hv)
    | across => rfl

/-! ### Crossings -/

/-- A corner with its side. -/
noncomputable def sided (eps : ℝ) (p : Plane ℝ) (v : Vertex ℝ) : SidedVertex ℝ :=
  ⟨v, p.sideOf eps v.pos⟩

theorem crossing?_eq_none {a b : Vertex ℝ}
    (h : (p.sideOf eps a.pos).join (p.sideOf eps b.pos) ≠ .across) :
    p.crossing? (p.sided eps a) (p.sided eps b) = none := if_neg h

theorem sides_of_join_eq_across {a b : Vec3 ℝ} (heps : 0 ≤ eps)
    (h : (p.sideOf eps a).join (p.sideOf eps b) = .across) :
    (eps < p.signedDistance a ∧ p.signedDistance b < -eps) ∨
      (p.signedDistance a < -eps ∧ eps < p.signedDistance b) := by
  rw [← sideOf_eq_front heps, ← sideOf_eq_front heps, ← sideOf_eq_back, ← sideOf_eq_back]
  have ha : p.sideOf eps a ≠ .across := sideOf_ne_across a
  have hb : p.sideOf eps b ≠ .across := sideOf_ne_across b
  cases hsa : p.sideOf eps a <;> cases hsb : p.sideOf eps b <;> simp_all [Side.join]

/-- Where the line through two points meets the plane, the points weighed by the
distance of the other one. -/
noncomputable def meet (p : Plane ℝ) (a b : Vec3 ℝ) : Vec3 ℝ :=
  (p.signedDistance b - p.signedDistance a)⁻¹ •
    (p.signedDistance b • a - p.signedDistance a • b)

theorem meet_comm (p : Plane ℝ) (a b : Vec3 ℝ) : p.meet b a = p.meet a b := by
  rw [meet, meet, ← neg_sub (p.signedDistance b), inv_neg,
    ← neg_sub (p.signedDistance b • a), neg_smul_neg]

theorem signedDistance_meet {a b : Vec3 ℝ} (h : p.signedDistance a ≠ p.signedDistance b) :
    p.signedDistance (p.meet a b) = 0 := by
  have hne : p.signedDistance b - p.signedDistance a ≠ 0 := sub_ne_zero.mpr h.symm
  have hdot : (p.signedDistance b - p.signedDistance a) * p.w
      = p.signedDistance b * p.normal.dot a - p.signedDistance a * p.normal.dot b := by
    simp only [signedDistance]
    ring
  rw [signedDistance, meet, Vec3.dot_smul, Vec3.dot_sub, Vec3.dot_smul, Vec3.dot_smul, ← hdot,
    inv_mul_cancel_left₀ hne, sub_self]

theorem meet_mem_segment {a b : Vec3 ℝ} (heps : 0 ≤ eps)
    (h : (p.sideOf eps a).join (p.sideOf eps b) = .across) : p.meet a b ∈ segment ℝ a b := by
  rcases sides_of_join_eq_across heps h with ⟨ha, hb⟩ | ⟨ha, hb⟩
  · have hneg : p.signedDistance b - p.signedDistance a < 0 := by linarith
    refine ⟨p.signedDistance b / (p.signedDistance b - p.signedDistance a),
      -p.signedDistance a / (p.signedDistance b - p.signedDistance a),
      div_nonneg_of_nonpos (by linarith) hneg.le, div_nonneg_of_nonpos (by linarith) hneg.le,
      by rw [← add_div, ← sub_eq_add_neg, div_self hneg.ne], ?_⟩
    rw [meet, div_eq_inv_mul, div_eq_inv_mul]
    module
  · have hpos : 0 < p.signedDistance b - p.signedDistance a := by linarith
    refine ⟨p.signedDistance b / (p.signedDistance b - p.signedDistance a),
      -p.signedDistance a / (p.signedDistance b - p.signedDistance a),
      div_nonneg (by linarith) hpos.le, div_nonneg (by linarith) hpos.le,
      by rw [← add_div, ← sub_eq_add_neg, div_self hpos.ne'], ?_⟩
    rw [meet, div_eq_inv_mul, div_eq_inv_mul]
    module

theorem signedDistance_ne_of_join_eq_across {a b : Vec3 ℝ} (heps : 0 ≤ eps)
    (h : (p.sideOf eps a).join (p.sideOf eps b) = .across) :
    p.signedDistance a ≠ p.signedDistance b := by
  rcases sides_of_join_eq_across heps h with ⟨ha, hb⟩ | ⟨ha, hb⟩
  · exact (by linarith : p.signedDistance b < p.signedDistance a).ne'
  · exact (by linarith : p.signedDistance a < p.signedDistance b).ne

theorem signedDistance_interpolate (a b : Vertex ℝ) (t : ℝ) :
    p.signedDistance (a.interpolate b t).pos
      = (1 - t) * p.signedDistance a.pos + t * p.signedDistance b.pos := by
  have hpos : (a.interpolate b t).pos = (1 - t) • a.pos + t • b.pos := by
    show a.pos + t • (b.pos - a.pos) = _
    module
  rw [hpos, signedDistance_combo p _ _ (by ring)]

/-- An edge whose ends are on different sides is long enough for a crossing. Its parameter is the
share of the first end in the distances of both. -/
theorem crossing?_eq_some {a b : Vertex ℝ} (heps : Scalar.epsilon ≤ eps)
    (h : (p.sideOf eps a.pos).join (p.sideOf eps b.pos) = .across) :
    p.crossing? (p.sided eps a) (p.sided eps b) = some (a.interpolate b
      (p.signedDistance a.pos / (p.signedDistance a.pos - p.signedDistance b.pos))) := by
  have hpos : (0 : ℝ) < Scalar.epsilon := Scalar.epsilon_pos
  have halong : p.normal.dot (b.pos - a.pos) = p.signedDistance b.pos - p.signedDistance a.pos := by
    simp [signedDistance]
  have hlong : Scalar.epsilon < Scalar.abs (p.normal.dot (b.pos - a.pos)) := by
    rw [halong, Scalar.abs_real]
    rcases sides_of_join_eq_across (hpos.le.trans heps) h with ⟨ha, hb⟩ | ⟨ha, hb⟩
    · rw [abs_of_neg (by linarith)]
      linarith
    · rw [abs_of_pos (by linarith)]
      linarith
  have hw : p.w - p.normal.dot a.pos = -p.signedDistance a.pos := by
    simp only [signedDistance, neg_sub]
  have hratio : (p.w - p.normal.dot a.pos) / p.normal.dot (b.pos - a.pos)
      = p.signedDistance a.pos / (p.signedDistance a.pos - p.signedDistance b.pos) := by
    rw [halong, hw, ← neg_div_neg_eq, neg_neg, neg_sub]
  rw [← hratio]
  exact (if_pos h).trans (if_pos hlong)

/-- An edge whose ends are on different sides has a crossing. -/
theorem exists_crossing?_eq {a b : Vertex ℝ} (heps : Scalar.epsilon ≤ eps)
    (h : (p.sideOf eps a.pos).join (p.sideOf eps b.pos) = .across) :
    ∃ x, p.crossing? (p.sided eps a) (p.sided eps b) = some x ∧ x.pos = p.meet a.pos b.pos := by
  refine ⟨_, crossing?_eq_some heps h, ?_⟩
  have hne := sub_ne_zero.mpr
    (signedDistance_ne_of_join_eq_across (Scalar.epsilon_pos.le.trans heps) h).symm
  show a.pos + (p.signedDistance a.pos / (p.signedDistance a.pos - p.signedDistance b.pos)) •
    (b.pos - a.pos) = p.meet a.pos b.pos
  rw [← neg_div_neg_eq, neg_sub, meet, ← smul_right_inj hne, smul_add, smul_smul,
    mul_div_cancel₀ _ hne, smul_inv_smul₀ hne]
  module

/-- An edge whose ends are on different sides meets the plane in between. -/
theorem exists_crossing? {a b : Vertex ℝ} (heps : Scalar.epsilon ≤ eps)
    (h : (p.sideOf eps a.pos).join (p.sideOf eps b.pos) = .across) :
    ∃ x, p.crossing? (p.sided eps a) (p.sided eps b) = some x ∧
      x.pos ∈ segment ℝ a.pos b.pos ∧ p.signedDistance x.pos = 0 := by
  have hnonneg := Scalar.epsilon_pos.le.trans heps
  obtain ⟨x, hx, hpos⟩ := exists_crossing?_eq heps h
  exact ⟨x, hx, hpos ▸ meet_mem_segment hnonneg h,
    hpos ▸ signedDistance_meet (signedDistance_ne_of_join_eq_across hnonneg h)⟩

/-! ### Walking round the outline -/

/-- What an edge adds to the piece that is not on the side `away`: its first corner,
unless that is on that side, and then the crossing, if there is one. -/
noncomputable def emit (eps : ℝ) (p : Plane ℝ) (away : Side) (e : Vertex ℝ × Vertex ℝ) :
    List (Vertex ℝ) :=
  (if p.sideOf eps e.1.pos = away then [] else [e.1]) ++
    (p.crossing? (p.sided eps e.1) (p.sided eps e.2)).toList

/-- The corners of the piece that is not on the side `away`. -/
noncomputable def part (eps : ℝ) (p : Plane ℝ) (away : Side) (corners : List (Vertex ℝ)) :
    List (Vertex ℝ) := (edges corners).flatMap (p.emit eps away)

theorem partWithout_eq_part (away : Side) (corners : List (Vertex ℝ)) :
    p.partWithout away (edges (corners.map fun v => ⟨v, p.sideOf eps v.pos⟩))
      = p.part eps away corners := by
  unfold partWithout part
  rw [edges_map (fun v => (⟨v, p.sideOf eps v.pos⟩ : SidedVertex ℝ)), List.flatMap_map]
  refine List.flatMap_congr fun e _ => ?_
  simp only [emit, Prod.map_fst, Prod.map_snd]
  split <;> rfl

/-- An outline begun elsewhere gives the same corners. -/
theorem part_append_comm (away : Side) (l r : List (Vertex ℝ)) :
    (p.part eps away (l ++ r)).Perm (p.part eps away (r ++ l)) :=
  (edges_append_comm l r).flatMap_right _

/-- What an edge adds is one of its ends, not on the side `away`, or on the plane in
between. -/
theorem of_mem_emit (heps : Scalar.epsilon ≤ eps) {away : Side} {e : Vertex ℝ × Vertex ℝ}
    {x : Vertex ℝ} (h : x ∈ p.emit eps away e) :
    (x = e.1 ∧ p.sideOf eps x.pos ≠ away) ∨
      (x.pos ∈ segment ℝ e.1.pos e.2.pos ∧ p.signedDistance x.pos = 0) := by
  rcases List.mem_append.mp h with h | h
  · split at h
    · cases h
    · next hside =>
      obtain rfl := List.mem_singleton.mp h
      exact .inl ⟨rfl, hside⟩
  · by_cases hacross : (p.sideOf eps e.1.pos).join (p.sideOf eps e.2.pos) = .across
    · obtain ⟨y, hy, hseg, hzero⟩ := exists_crossing? heps hacross
      rw [hy, Option.toList_some, List.mem_singleton] at h
      exact .inr ⟨h ▸ hseg, h ▸ hzero⟩
    · rw [crossing?_eq_none hacross] at h
      cases h

theorem pos_mem_segment_of_mem_emit (heps : Scalar.epsilon ≤ eps) {away : Side}
    {e : Vertex ℝ × Vertex ℝ} {x : Vertex ℝ} (h : x ∈ p.emit eps away e) :
    x.pos ∈ segment ℝ e.1.pos e.2.pos := by
  rcases of_mem_emit heps h with ⟨rfl, -⟩ | ⟨h, -⟩
  · exact left_mem_segment ℝ _ _
  · exact h

theorem mem_emit_fst {away : Side} {e : Vertex ℝ × Vertex ℝ}
    (h : p.sideOf eps e.1.pos ≠ away) : e.1 ∈ p.emit eps away e := by
  unfold emit
  rw [if_neg h]
  exact List.mem_append_left _ (List.mem_singleton_self _)

theorem mem_part_of_mem {away : Side} {l : List (Vertex ℝ)} {v : Vertex ℝ} (hv : v ∈ l)
    (h : p.sideOf eps v.pos ≠ away) : v ∈ p.part eps away l := by
  obtain ⟨w, hw⟩ := exists_mem_edges hv
  exact List.mem_flatMap.mpr ⟨(v, w), hw, mem_emit_fst h⟩

/-- No corner of a part is outside of the polygon. -/
theorem pos_mem_of_mem_part (heps : Scalar.epsilon ≤ eps) {away : Side} {q : Polygon ℝ}
    {x : Vertex ℝ} (h : x ∈ p.part eps away q.vertices) : x.pos ∈ q.region := by
  obtain ⟨e, he, hx⟩ := List.mem_flatMap.mp h
  have hmem := mem_of_mem_edges he
  exact q.convex_region.segment_subset
    (Polygon.mem_region_of_mem (Polygon.pos_mem_corners hmem.1))
    (Polygon.mem_region_of_mem (Polygon.pos_mem_corners hmem.2))
    (pos_mem_segment_of_mem_emit heps hx)

/-- The part without what is behind the plane is not behind it. -/
theorem le_of_mem_part_back (heps : Scalar.epsilon ≤ eps) {l : List (Vertex ℝ)} {x : Vertex ℝ}
    (h : x ∈ p.part eps .back l) : -eps ≤ p.signedDistance x.pos := by
  have hpos : (0 : ℝ) < Scalar.epsilon := Scalar.epsilon_pos
  obtain ⟨e, -, hx⟩ := List.mem_flatMap.mp h
  rcases of_mem_emit heps hx with ⟨-, hside⟩ | ⟨-, hzero⟩
  · exact neg_le_of_sideOf_ne_back hside
  · linarith

/-- The part without what is in front of the plane is not in front of it. -/
theorem le_of_mem_part_front (heps : Scalar.epsilon ≤ eps) {l : List (Vertex ℝ)} {x : Vertex ℝ}
    (h : x ∈ p.part eps .front l) : p.signedDistance x.pos ≤ eps := by
  have hpos : (0 : ℝ) < Scalar.epsilon := Scalar.epsilon_pos
  obtain ⟨e, -, hx⟩ := List.mem_flatMap.mp h
  rcases of_mem_emit heps hx with ⟨-, hside⟩ | ⟨-, hzero⟩
  · exact le_of_sideOf_ne_front (hpos.le.trans heps) hside
  · linarith

/-! ### Parts of convex polygons -/

theorem emit_inOrder {n : Vec3 ℝ} (heps : Scalar.epsilon ≤ eps) (away : Side) {u v : Vertex ℝ}
    {l r : List (Vec3 ℝ)} (h : InOrder n (l ++ u.pos :: v.pos :: r)) :
    InOrder n (l ++ (p.emit eps away (u, v)).map Vertex.pos ++ v.pos :: r) := by
  by_cases hacross : (p.sideOf eps u.pos).join (p.sideOf eps v.pos) = .across
  · obtain ⟨x, hx, hseg, -⟩ := exists_crossing? heps hacross
    refine (h.insert hseg).sublist ?_
    simp only [emit, hx, List.append_assoc]
    refine (List.Sublist.refl l).append ?_
    split <;> simp
  · refine h.sublist ?_
    simp only [emit, crossing?_eq_none hacross, List.append_assoc]
    refine (List.Sublist.refl l).append ?_
    split <;> simp

theorem walk_inOrder {n : Vec3 ℝ} (heps : Scalar.epsilon ≤ eps) (away : Side) (u z : Vertex ℝ)
    (mid : List (Vertex ℝ)) (l : List (Vec3 ℝ))
    (h : InOrder n (l ++ u.pos :: (mid.map Vertex.pos ++ [z.pos]))) :
    InOrder n (l ++ ((walk u mid z).flatMap (p.emit eps away)).map Vertex.pos ++ [z.pos]) := by
  induction mid generalizing u l with
  | nil => simpa using emit_inOrder heps away h
  | cons v mid ih =>
    have hstep := ih v (l ++ (p.emit eps away (u, v)).map Vertex.pos) (emit_inOrder heps away h)
    simpa using hstep

/-- Either part of a convex outline is convex. -/
theorem part_inOrder {n : Vec3 ℝ} (heps : Scalar.epsilon ≤ eps) (away : Side)
    {l : List (Vertex ℝ)} (h : InOrder n (l.map Vertex.pos)) :
    InOrder n ((p.part eps away l).map Vertex.pos) := by
  cases l with
  | nil => exact h
  | cons u mid =>
    have hwalk := walk_inOrder (p := p) heps away u u mid [] h.close
    exact hwalk.sublist (List.sublist_append_left _ _)

/-- A way from one side to the other adds to both parts a point that they share. -/
theorem exists_common (heps : Scalar.epsilon ≤ eps) {u z : Vertex ℝ} {mid : List (Vertex ℝ)}
    (h : (p.sideOf eps u.pos).join (p.sideOf eps z.pos) = .across) :
    ∃ e ∈ walk u mid z, ∃ x, ∀ away, away ≠ .on → x ∈ p.emit eps away e := by
  induction mid generalizing u with
  | nil =>
    obtain ⟨x, hx, -⟩ := exists_crossing? heps h
    exact ⟨(u, z), by simp, x, fun away _ => by simp [emit, hx]⟩
  | cons v mid ih =>
    by_cases hv : (p.sideOf eps u.pos).join (p.sideOf eps v.pos) = .across
    · obtain ⟨x, hx, -⟩ := exists_crossing? heps hv
      exact ⟨(u, v), by simp, x, fun away _ => by simp [emit, hx]⟩
    · by_cases hon : p.sideOf eps v.pos = .on
      · obtain ⟨w, hw⟩ := exists_mem_walk v mid z
        refine ⟨(v, w), by simp [hw], v, fun away haway => mem_emit_fst ?_⟩
        exact hon ▸ haway.symm
      · obtain ⟨e, he, hx⟩ := ih (Side.join_eq_across_of_ne h (sideOf_ne_across _)
          (sideOf_ne_across _) hon hv)
        exact ⟨e, by simp [he], hx⟩

theorem exists_common_mem_hull (mid : List (Vertex ℝ)) (heps : Scalar.epsilon ≤ eps)
    {u z : Vertex ℝ} (h : (p.sideOf eps u.pos).join (p.sideOf eps z.pos) = .across) :
    ∃ x : Vertex ℝ, x.pos ∈ convexHull ℝ {a | a ∈ (u :: mid ++ [z]).map Vertex.pos} ∧
      ∀ away, away ≠ .on → x ∈ (walk u mid z).flatMap (p.emit eps away) := by
  obtain ⟨e, he, x, hx⟩ := exists_common heps h
  refine ⟨x, ?_, fun away haway => List.mem_flatMap.mpr ⟨e, he, hx away haway⟩⟩
  have hhull : ∀ v ∈ u :: mid ++ [z],
      v.pos ∈ convexHull ℝ {a | a ∈ (u :: mid ++ [z]).map Vertex.pos} :=
    fun v hv => subset_convexHull ℝ _ (List.mem_map_of_mem hv)
  exact (convex_convexHull ℝ _).segment_subset
    (hhull e.1 (List.mem_append_left _ (fst_mem_of_mem_walk he)))
    (hhull e.2 (List.mem_cons_of_mem _ (snd_mem_of_mem_walk he)))
    (pos_mem_segment_of_mem_emit heps (hx .front (by simp)))

/-- Any segment from a corner in front of the plane to one behind it goes through
what the two parts of a convex outline share. -/
theorem exists_mem_common (heps : Scalar.epsilon ≤ eps) {l : List (Vertex ℝ)} {n : Vec3 ℝ}
    (hn : n ≠ 0) (hl : InOrder n (l.map Vertex.pos)) {f b : Vertex ℝ} (hf : f ∈ l) (hb : b ∈ l)
    (hfside : p.sideOf eps f.pos = .front) (hbside : p.sideOf eps b.pos = .back) :
    ∃ y ∈ convexHull ℝ {a | ∀ away, away ≠ .on → a ∈ (p.part eps away l).map Vertex.pos},
      y ∈ segment ℝ f.pos b.pos := by
  have hpos : (0 : ℝ) < Scalar.epsilon := Scalar.epsilon_pos
  obtain ⟨l₁, l₂, mid, mid', rfl, hcut⟩ := exists_cut hf hb (by rintro rfl; simp_all)
  have hfb : (p.sideOf eps f.pos).join (p.sideOf eps b.pos) = .across := by
    rw [hfside, hbside]; rfl
  have hbf : (p.sideOf eps b.pos).join (p.sideOf eps f.pos) = .across := by
    rw [hfside, hbside]; rfl
  obtain ⟨x, hxhull, hx⟩ := exists_common_mem_hull mid heps hfb
  obtain ⟨x', hxhull', hx'⟩ := exists_common_mem_hull mid' heps hbf
  have hparts : ∀ away, ∀ a, a ∈ (walk f mid b).flatMap (p.emit eps away) ∨
      a ∈ (walk b mid' f).flatMap (p.emit eps away) → a ∈ p.part eps away (l₁ ++ l₂) := by
    intro away a ha
    rw [(part_append_comm away l₁ l₂).mem_iff, hcut, part, edges_cut, List.flatMap_append,
      List.mem_append]
    exact ha
  have hcommon := fun away haway => List.mem_map_of_mem (f := Vertex.pos)
    (hparts away x (.inl (hx away haway)))
  have hcommon' := fun away haway => List.mem_map_of_mem (f := Vertex.pos)
    (hparts away x' (.inr (hx' away haway)))
  have horder : InOrder n (f.pos :: mid.map Vertex.pos ++ b.pos :: mid'.map Vertex.pos) := by
    have hrot : InOrder n ((l₂ ++ l₁).map Vertex.pos) := by
      rw [List.map_append] at hl ⊢
      exact hl.append_comm
    rw [hcut] at hrot
    simpa using hrot
  have hside := sides_of_join_eq_across (hpos.le.trans heps) hfb
  have hxback := le_of_mem_part_back heps (hparts .back x (.inl (hx _ (by simp))))
  have hxfront := le_of_mem_part_front heps (hparts .front x (.inl (hx _ (by simp))))
  rw [sideOf_eq_front (hpos.le.trans heps)] at hfside
  rw [sideOf_eq_back] at hbside
  simp only [signedDistance] at hxback hxfront hfside hbside
  obtain ⟨y, hyfb, hyxx⟩ := horder.exists_mem_diagonals (m := p.normal) hn
    (by simpa using hxhull) (by simpa using hxhull') (by linarith) (by linarith) (by linarith)
  have hsub := subset_convexHull ℝ
    {a | ∀ away, away ≠ .on → a ∈ (p.part eps away (l₁ ++ l₂)).map Vertex.pos}
  exact ⟨y, (convex_convexHull ℝ _).segment_subset (@hsub x.pos hcommon)
    (@hsub x'.pos hcommon') hyxx, hyfb⟩

/-- The two parts of a convex outline leave nothing of it out. -/
theorem region_subset_parts (heps : Scalar.epsilon ≤ eps) {q : Polygon ℝ} (hq : q.IsConvex) :
    q.region ⊆ convexHull ℝ {a | a ∈ (p.part eps .back q.vertices).map Vertex.pos} ∪
      convexHull ℝ {a | a ∈ (p.part eps .front q.vertices).map Vertex.pos} := by
  obtain ⟨n, hn, hq⟩ := hq
  have hjoin := convexHull_subset_of_join
    (s := {a | ∃ v ∈ q.vertices, p.sideOf eps v.pos = .front ∧ v.pos = a})
    (t := {a | ∃ v ∈ q.vertices, p.sideOf eps v.pos = .back ∧ v.pos = a})
    (convex_convexHull ℝ
      {a | ∀ away, away ≠ .on → a ∈ (p.part eps away q.vertices).map Vertex.pos})
    (by
      rintro _ ⟨f, hf, hfside, rfl⟩ _ ⟨b, hb, hbside, rfl⟩
      exact exists_mem_common heps hn hq hf hb hfside hbside)
  refine (convexHull_mono ?_).trans (hjoin.trans (Set.union_subset_union ?_ ?_))
  · intro a ha
    obtain ⟨v, hv, rfl⟩ := List.mem_map.mp ha
    cases hside : p.sideOf eps v.pos with
    | across => exact absurd hside (sideOf_ne_across _)
    | front => exact .inl (.inl ⟨v, hv, hside, rfl⟩)
    | back => exact .inl (.inr ⟨v, hv, hside, rfl⟩)
    | on =>
      refine .inr (subset_convexHull ℝ _ fun away haway => ?_)
      exact List.mem_map_of_mem (mem_part_of_mem hv (hside ▸ haway.symm))
  · refine convexHull_min (Set.union_subset ?_ ?_) (convex_convexHull ℝ _)
    · rintro _ ⟨v, hv, hside, rfl⟩
      exact subset_convexHull ℝ _ (List.mem_map_of_mem (mem_part_of_mem hv (by simp [hside])))
    · exact convexHull_mono fun a ha => ha .back (by simp)
  · refine convexHull_min (Set.union_subset ?_ ?_) (convex_convexHull ℝ _)
    · rintro _ ⟨v, hv, hside, rfl⟩
      exact subset_convexHull ℝ _ (List.mem_map_of_mem (mem_part_of_mem hv (by simp [hside])))
    · exact convexHull_mono fun a ha => ha .front (by simp)

/-! ### The number of corners of a part -/

theorem one_le_length_walk (heps : Scalar.epsilon ≤ eps) {u z : Vertex ℝ} (mid : List (Vertex ℝ))
    (h : (p.sideOf eps u.pos).join (p.sideOf eps z.pos) = .across) {away : Side}
    (haway : away ≠ .on) : 1 ≤ ((walk u mid z).flatMap (p.emit eps away)).length := by
  obtain ⟨x, -, hx⟩ := exists_common_mem_hull mid heps h
  exact List.length_pos_of_mem (hx away haway)

theorem two_le_length_walk (heps : Scalar.epsilon ≤ eps) {u z : Vertex ℝ} (mid : List (Vertex ℝ))
    (h : (p.sideOf eps u.pos).join (p.sideOf eps z.pos) = .across) {away : Side}
    (haway : away ≠ .on) (hu : p.sideOf eps u.pos ≠ away) :
    2 ≤ ((walk u mid z).flatMap (p.emit eps away)).length := by
  cases mid with
  | nil =>
    obtain ⟨x, hx, -⟩ := exists_crossing? heps h
    simp [emit, hx, hu]
  | cons v mid =>
    have hfst := List.length_pos_of_mem (mem_emit_fst (e := (u, v)) hu)
    rw [walk_cons, List.flatMap_cons, List.length_append]
    by_cases hv : (p.sideOf eps u.pos).join (p.sideOf eps v.pos) = .across
    · obtain ⟨x, hx, -⟩ := exists_crossing? heps hv
      simp [emit, hx, hu]
    · have hrest : 1 ≤ ((walk v mid z).flatMap (p.emit eps away)).length := by
        by_cases hon : p.sideOf eps v.pos = .on
        · obtain ⟨w, hw⟩ := exists_mem_walk v mid z
          exact List.length_pos_of_mem
            (List.mem_flatMap.mpr ⟨(v, w), hw, mem_emit_fst (hon ▸ haway.symm)⟩)
        · exact one_le_length_walk heps mid (Side.join_eq_across_of_ne h (sideOf_ne_across _)
            (sideOf_ne_across _) hon hv) haway
      omega

/-- Either part of an outline with corners on both sides has at least three
corners. -/
theorem three_le_length_part (heps : Scalar.epsilon ≤ eps) {l : List (Vertex ℝ)}
    (h : p.sideOfAll eps l = .across) {away : Side} (haway : away ≠ .on) :
    3 ≤ (p.part eps away l).length := by
  obtain ⟨⟨f, hf, hfside⟩, b, hb, hbside⟩ := sideOfAll_eq_across.mp h
  have hfb : (p.sideOf eps f.pos).join (p.sideOf eps b.pos) = .across := by
    rw [hfside, hbside]; rfl
  have hbf : (p.sideOf eps b.pos).join (p.sideOf eps f.pos) = .across := by
    rw [hfside, hbside]; rfl
  obtain ⟨l₁, l₂, mid, mid', rfl, hcut⟩ := exists_cut hf hb (by rintro rfl; simp_all)
  rw [(part_append_comm away l₁ l₂).length_eq, hcut, part, edges_cut, List.flatMap_append,
    List.length_append]
  -- the way that begins on the side that stays adds its first corner and a shared point
  by_cases hside : p.sideOf eps f.pos = away
  · have hone := one_le_length_walk heps mid hfb haway
    have htwo := two_le_length_walk heps mid' hbf haway (by rw [hbside, ← hside, hfside]; simp)
    omega
  · have htwo := two_le_length_walk heps mid hfb haway hside
    have hone := one_le_length_walk heps mid' hbf haway
    omega

variable {q r : Polygon ℝ}

/-! ### The side of a polygon -/

theorem sideOfPolygon_eq_on : p.sideOfPolygon eps q = .on ↔
    ∀ x ∈ q.corners, p.sideOf eps x = .on := by
  rw [Polygon.corners, List.forall_mem_map]
  exact sideOfAll_eq_on

theorem sideOfPolygon_mem_front : (p.sideOfPolygon eps q = .on ∨ p.sideOfPolygon eps q = .front) ↔
    ∀ x ∈ q.corners, p.sideOf eps x ≠ .back := by
  rw [Polygon.corners, List.forall_mem_map]
  exact sideOfAll_mem_front

theorem sideOfPolygon_mem_back : (p.sideOfPolygon eps q = .on ∨ p.sideOfPolygon eps q = .back) ↔
    ∀ x ∈ q.corners, p.sideOf eps x ≠ .front := by
  rw [Polygon.corners, List.forall_mem_map]
  exact sideOfAll_mem_back

theorem sideOfPolygon_eq_across : p.sideOfPolygon eps q = .across ↔
    (∃ x ∈ q.corners, p.sideOf eps x = .front) ∧ ∃ x ∈ q.corners, p.sideOf eps x = .back := by
  simp only [Polygon.corners, List.mem_map, exists_exists_and_eq_and]
  exact sideOfAll_eq_across

theorem sideOfPolygon_eq_back (heps : 0 ≤ eps) : p.sideOfPolygon eps q = .back ↔
    (∀ x ∈ q.corners, p.signedDistance x ≤ eps) ∧ ∃ x ∈ q.corners, p.signedDistance x < -eps := by
  have hback : (p.sideOfPolygon eps q = .on ∨ p.sideOfPolygon eps q = .back) ↔
      ∀ x ∈ q.corners, p.signedDistance x ≤ eps := by
    simp only [sideOfPolygon_mem_back, ne_eq, sideOf_eq_front heps, not_lt]
  constructor
  · intro h
    have hle := hback.mp (.inr h)
    refine ⟨hle, ?_⟩
    by_contra hnone
    push Not at hnone
    have hon : p.sideOfPolygon eps q = .on := sideOfPolygon_eq_on.mpr fun x hx =>
      sideOf_eq_on.mpr (abs_le.mpr ⟨hnone x hx, hle x hx⟩)
    simp [hon] at h
  · rintro ⟨hle, x, hx, hlt⟩
    refine (hback.mpr hle).resolve_left fun hon => ?_
    have hx := sideOfPolygon_eq_on.mp hon x hx
    rw [sideOf_eq_on, abs_le] at hx
    linarith

theorem sideOfPolygon_eq_front : p.sideOfPolygon eps q = .front ↔
    (∀ x ∈ q.corners, -eps ≤ p.signedDistance x) ∧ ∃ x ∈ q.corners, eps < p.signedDistance x := by
  have hfront : (p.sideOfPolygon eps q = .on ∨ p.sideOfPolygon eps q = .front) ↔
      ∀ x ∈ q.corners, -eps ≤ p.signedDistance x := by
    simp only [sideOfPolygon_mem_front, ne_eq, sideOf_eq_back, not_lt]
  constructor
  · intro h
    have hle := hfront.mp (.inr h)
    refine ⟨hle, ?_⟩
    by_contra hnone
    push Not at hnone
    have hon : p.sideOfPolygon eps q = .on := sideOfPolygon_eq_on.mpr fun x hx =>
      sideOf_eq_on.mpr (abs_le.mpr ⟨hle x hx, hnone x hx⟩)
    simp [hon] at h
  · rintro ⟨hle, x, hx, hlt⟩
    refine (hfront.mpr hle).resolve_left fun hon => ?_
    have hx := sideOfPolygon_eq_on.mp hon x hx
    rw [sideOf_eq_on, abs_le] at hx
    linarith

/-! ### The pieces of a polygon -/

/-- The piece of a polygon that is not on the side `away`. -/
noncomputable def piece (eps : ℝ) (p : Plane ℝ) (away : Side) (q : Polygon ℝ) : Polygon ℝ :=
  ⟨p.part eps away q.vertices, q.plane⟩

theorem split_on (h : p.sideOfPolygon eps q = .on) : p.split eps q =
    if 0 < p.normal.dot q.plane.normal then { onFront := [q] } else { onBack := [q] } := by
  rw [split, h]

theorem split_front (h : p.sideOfPolygon eps q = .front) : p.split eps q = { front := [q] } := by
  rw [split, h]

theorem split_back (h : p.sideOfPolygon eps q = .back) : p.split eps q = { back := [q] } := by
  rw [split, h]

/-- A polygon that lies across the plane is cut in two. -/
theorem split_across (heps : Scalar.epsilon ≤ eps) (h : p.sideOfPolygon eps q = .across) :
    p.split eps q = { front := [p.piece eps .back q], back := [p.piece eps .front q] } := by
  have hback : 3 ≤ (p.part eps .back q.vertices).length := three_le_length_part heps h (by simp)
  have hfront : 3 ≤ (p.part eps .front q.vertices).length := three_le_length_part heps h (by simp)
  rw [split, h]
  simp only [partWithout_eq_part, piece?, piece, if_pos hback, if_pos hfront]

theorem piece_pieceOf (heps : Scalar.epsilon ≤ eps) (away : Side) :
    (p.piece eps away q).PieceOf q where
  plane_eq := rfl
  corner_mem x hx := by
    obtain ⟨v, hv, rfl⟩ := List.mem_map.mp hx
    exact pos_mem_of_mem_part heps hv
  isConvex := fun ⟨n, hn, h⟩ => ⟨n, hn, part_inOrder heps away h⟩

/-- What the four kinds of pieces have to do with the polygon they are cut from. -/
structure IsSplit (eps : ℝ) (p : Plane ℝ) (q : Polygon ℝ) (s : Pieces ℝ) : Prop where
  /-- Every piece is a piece. -/
  pieceOf : ∀ r ∈ s.onFront ++ s.onBack ++ s.front ++ s.back, r.PieceOf q
  /-- A piece on the plane has no corner far from it. -/
  near : ∀ r ∈ s.onFront ++ s.onBack, ∀ x ∈ r.corners, |p.signedDistance x| ≤ eps
  /-- A piece in front has no corner far behind the plane. -/
  ahead : ∀ r ∈ s.front, ∀ x ∈ r.corners, -eps ≤ p.signedDistance x
  /-- A piece behind has no corner far in front of the plane. -/
  behind : ∀ r ∈ s.back, ∀ x ∈ r.corners, p.signedDistance x ≤ eps
  /-- The pieces of a convex polygon leave nothing of it out. -/
  covers : q.IsConvex → q.region ⊆ cover (s.onFront ++ s.onBack ++ s.front ++ s.back)

theorem isSplit_split (heps : Scalar.epsilon ≤ eps) (p : Plane ℝ) (q : Polygon ℝ) :
    IsSplit eps p q (p.split eps q) := by
  have hpos : (0 : ℝ) < Scalar.epsilon := Scalar.epsilon_pos
  have hcorner : ∀ {t : Set (Vec3 ℝ)}, (∀ v ∈ q.vertices, v.pos ∈ t) → ∀ x ∈ q.corners, x ∈ t := by
    intro t h x hx
    obtain ⟨v, hv, rfl⟩ := List.mem_map.mp hx
    exact h v hv
  cases h : p.sideOfPolygon eps q with
  | on =>
    have hnear : ∀ x ∈ q.corners, x ∈ {x | |p.signedDistance x| ≤ eps} :=
      hcorner fun v hv => sideOf_eq_on.mp (sideOfAll_eq_on.mp h v hv)
    rw [split_on h]
    split <;> constructor <;> simp_all [Polygon.PieceOf.refl]
  | front =>
    have hahead : ∀ x ∈ q.corners, x ∈ {x | -eps ≤ p.signedDistance x} :=
      hcorner fun v hv => neg_le_of_sideOf_ne_back (sideOfAll_mem_front.mp (.inr h) v hv)
    rw [split_front h]
    constructor <;> simp_all [Polygon.PieceOf.refl]
  | back =>
    have hbehind : ∀ x ∈ q.corners, x ∈ {x | p.signedDistance x ≤ eps} :=
      hcorner fun v hv => le_of_sideOf_ne_front (hpos.le.trans heps)
        (sideOfAll_mem_back.mp (.inr h) v hv)
    rw [split_back h]
    constructor <;> simp_all [Polygon.PieceOf.refl]
  | across =>
    rw [split_across heps h]
    constructor
    · simp [piece_pieceOf heps]
    · simp
    · intro r hr x hx
      obtain rfl := List.mem_singleton.mp hr
      obtain ⟨v, hv, rfl⟩ := List.mem_map.mp hx
      exact le_of_mem_part_back heps hv
    · intro r hr x hx
      obtain rfl := List.mem_singleton.mp hr
      obtain ⟨v, hv, rfl⟩ := List.mem_map.mp hx
      exact le_of_mem_part_front heps hv
    · intro hq x hx
      simpa [Polygon.region, Polygon.corners, piece] using region_subset_parts (p := p) heps hq hx

end Plane

end Solids
