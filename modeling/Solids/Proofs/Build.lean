import Solids.Proofs.Clip
/-!
# Solids.Proofs.Build

**Building trees.** What a tree holds after polygons were inserted, and how many
levels that takes.

An insertion goes down the tree and along the list at once: `Tree.insert_induction`
is that recursion, and every statement about the tree that results is proved by it.

Main statements:

* `Tree.cover_insert` — nothing is lost and nothing is added;
* `Tree.mem_or_near_of_mem_insert` — what was inserted is near the plane of some node;
* `Tree.exists_insert` — polygons that fit their own planes need no more levels than
  the tree has and they have planes.
-/

namespace Solids

/-- No corner is further than the tolerance from the polygon's own plane. -/
def Polygon.Fits (eps : ℝ) (q : Polygon ℝ) : Prop :=
  ∀ x ∈ q.corners, |q.plane.signedDistance x| ≤ eps

namespace Polygon

variable {eps : ℝ} {q r : Polygon ℝ}

theorem PieceOf.fits (h : r.PieceOf q) (hq : q.Fits eps) : r.Fits eps := by
  rw [Fits, h.plane_eq]
  exact h.forall_corners (q.plane.convex_abs_le eps) hq

@[simp] theorem fits_flip : q.flip.Fits eps ↔ q.Fits eps := by
  simp [Fits]

end Polygon

/-! ### What goes down -/

namespace Plane

variable {eps : ℝ} {p : Plane ℝ} {polygons : List (Polygon ℝ)} {q r : Polygon ℝ} {x : Vec3 ℝ}

theorem exists_pieceOf_onPlane (heps : Scalar.epsilon ≤ eps)
    (h : r ∈ Pieces.onPlane (p.splitAll eps polygons)) : ∃ q ∈ polygons, r.PieceOf q := by
  obtain ⟨q, hq, hr⟩ := mem_onPlane.mp h
  exact ⟨q, hq, (isSplit_split heps p q).pieceOf r (by simp_all; tauto)⟩

theorem exists_pieceOf_front (heps : Scalar.epsilon ≤ eps)
    (h : r ∈ (p.splitAll eps polygons).flatMap Pieces.front) : ∃ q ∈ polygons, r.PieceOf q := by
  obtain ⟨q, hq, hr⟩ := mem_front.mp h
  exact ⟨q, hq, (isSplit_split heps p q).pieceOf r (by simp_all)⟩

theorem exists_pieceOf_back (heps : Scalar.epsilon ≤ eps)
    (h : r ∈ (p.splitAll eps polygons).flatMap Pieces.back) : ∃ q ∈ polygons, r.PieceOf q := by
  obtain ⟨q, hq, hr⟩ := mem_back.mp h
  exact ⟨q, hq, (isSplit_split heps p q).pieceOf r (by simp_all)⟩

/-- The pieces that stay and those that go down are all there is. -/
theorem cover_onPlane_union_front_union_back (heps : Scalar.epsilon ≤ eps)
    (hconvex : ∀ q ∈ polygons, q.IsConvex) :
    cover (Pieces.onPlane (p.splitAll eps polygons))
      ∪ cover ((p.splitAll eps polygons).flatMap Pieces.front)
      ∪ cover ((p.splitAll eps polygons).flatMap Pieces.back) = cover polygons := by
  apply Set.Subset.antisymm
  · rintro x ((⟨r, hr, hx⟩ | ⟨r, hr, hx⟩) | ⟨r, hr, hx⟩)
    · obtain ⟨q, hq, hrq⟩ := exists_pieceOf_onPlane heps hr
      exact ⟨q, hq, hrq.region_subset hx⟩
    · obtain ⟨q, hq, hrq⟩ := exists_pieceOf_front heps hr
      exact ⟨q, hq, hrq.region_subset hx⟩
    · obtain ⟨q, hq, hrq⟩ := exists_pieceOf_back heps hr
      exact ⟨q, hq, hrq.region_subset hx⟩
  · rintro x ⟨q, hq, hx⟩
    obtain ⟨r, hr, hxr⟩ := (isSplit_split heps p q).covers (hconvex q hq) hx
    simp only [List.mem_append, or_assoc] at hr
    rcases hr with hr | hr | hr | hr
    · exact .inl (.inl ⟨r, mem_onPlane.mpr ⟨q, hq, by simp [hr]⟩, hxr⟩)
    · exact .inl (.inl ⟨r, mem_onPlane.mpr ⟨q, hq, by simp [hr]⟩, hxr⟩)
    · exact .inl (.inr ⟨r, mem_front.mpr ⟨q, hq, hr⟩, hxr⟩)
    · exact .inr ⟨r, mem_back.mpr ⟨q, hq, hr⟩, hxr⟩

/-- A polygon that fits its own plane is on that plane, and nothing of it goes
down. -/
theorem split_of_fits (h : q.Fits eps) : (q.plane.split eps q).front = [] ∧
    (q.plane.split eps q).back = [] := by
  have hon : q.plane.sideOfPolygon eps q = .on :=
    sideOfAll_eq_on.mpr fun v hv => sideOf_eq_on.mpr (h v.pos (Polygon.pos_mem_corners hv))
  rw [split_on hon]
  split <;> exact ⟨rfl, rfl⟩

theorem plane_ne_of_mem_front (heps : Scalar.epsilon ≤ eps) (hfits : ∀ q ∈ polygons, q.Fits eps)
    (h : r ∈ (p.splitAll eps polygons).flatMap Pieces.front) : r.plane ≠ p := by
  obtain ⟨q, hq, hr⟩ := mem_front.mp h
  rw [((isSplit_split heps p q).pieceOf r (by simp_all)).plane_eq]
  rintro rfl
  simp [(split_of_fits (hfits q hq)).1] at hr

theorem plane_ne_of_mem_back (heps : Scalar.epsilon ≤ eps) (hfits : ∀ q ∈ polygons, q.Fits eps)
    (h : r ∈ (p.splitAll eps polygons).flatMap Pieces.back) : r.plane ≠ p := by
  obtain ⟨q, hq, hr⟩ := mem_back.mp h
  rw [((isSplit_split heps p q).pieceOf r (by simp_all)).plane_eq]
  rintro rfl
  simp [(split_of_fits (hfits q hq)).2] at hr

end Plane

namespace Tree

variable {eps : ℝ} {levels : ℕ} {t t' : Tree ℝ} {polygons : List (Polygon ℝ)} {r : Polygon ℝ}

/-! ### The recursion of an insertion -/

/-- The plane that an insertion divides by. -/
noncomputable def divider (eps : ℝ) (t : Tree ℝ) (first : Polygon ℝ) (rest : List (Polygon ℝ)) :
    Plane ℝ := t.plane?.getD (splitter eps first rest)

@[simp] theorem divider_absent (first : Polygon ℝ) (rest : List (Polygon ℝ)) :
    divider eps absent first rest = splitter eps first rest := rfl

@[simp] theorem insert_nil : t.insert eps levels [] = some t := by
  rw [insert]

theorem insert_cons_eq_some {first : Polygon ℝ} {rest : List (Polygon ℝ)} :
    t.insert eps (levels + 1) (first :: rest) = some t' ↔
      ∃ front back,
        t.frontChild.insert eps levels (((t.divider eps first rest).splitAll eps
          (first :: rest)).flatMap Pieces.front) = some front ∧
        t.backChild.insert eps levels (((t.divider eps first rest).splitAll eps
          (first :: rest)).flatMap Pieces.back) = some back ∧
        t' = .node (some (t.divider eps first rest)) (t.own ++ Pieces.onPlane
          ((t.divider eps first rest).splitAll eps (first :: rest))) front back := by
  rw [insert]
  simp only [Option.bind_eq_bind, Option.bind_eq_some_iff, Option.pure_def, Option.some.injEq,
    divider, eq_comm (a := t')]
  constructor
  · rintro ⟨front, hfront, back, hback, h⟩
    exact ⟨front, back, hfront, hback, h⟩
  · rintro ⟨front, back, hfront, hback, h⟩
    exact ⟨front, hfront, back, hback, h⟩

/-- Induction along a successful insertion. -/
theorem insert_induction {motive : ℕ → Tree ℝ → List (Polygon ℝ) → Tree ℝ → Prop}
    (nil : ∀ levels t, motive levels t [] t)
    (cons : ∀ levels t first rest p front back, p = t.divider eps first rest →
      motive levels t.frontChild ((p.splitAll eps (first :: rest)).flatMap Pieces.front) front →
      motive levels t.backChild ((p.splitAll eps (first :: rest)).flatMap Pieces.back) back →
      motive (levels + 1) t (first :: rest) (.node (some p)
        (t.own ++ Pieces.onPlane (p.splitAll eps (first :: rest))) front back))
    (h : t.insert eps levels polygons = some t') : motive levels t polygons t' := by
  induction levels generalizing t t' polygons with
  | zero =>
    cases polygons with
    | nil =>
      rw [insert_nil] at h
      exact Option.some.inj h ▸ nil _ t
    | cons first rest => cases h
  | succ levels ih =>
    cases polygons with
    | nil =>
      rw [insert_nil] at h
      exact Option.some.inj h ▸ nil _ t
    | cons first rest =>
      obtain ⟨front, back, hfront, hback, rfl⟩ := insert_cons_eq_some.mp h
      exact cons levels t first rest _ front back rfl (ih hfront) (ih hback)

theorem polygons_eq (t : Tree ℝ) :
    t.polygons = t.own ++ t.backChild.polygons ++ t.frontChild.polygons := by
  cases t with
  | absent => rfl
  | node plane own front back => exact polygons_node plane own front back

theorem Grown.frontChild (h : t.Grown) : t.frontChild.Grown := by
  cases t with
  | absent => trivial
  | node plane own front back => exact h.2.1

theorem Grown.backChild (h : t.Grown) : t.backChild.Grown := by
  cases t with
  | absent => trivial
  | node plane own front back => exact h.2.2

/-! ### What a tree holds after an insertion -/

theorem isAbsent_insert (h : t.insert eps levels polygons = some t')
    (hne : t.isAbsent = false ∨ polygons ≠ []) : t'.isAbsent = false := by
  refine insert_induction
    (motive := fun _ t polygons t' => t.isAbsent = false ∨ polygons ≠ [] → t'.isAbsent = false)
    (fun _ t ht => by simpa using ht) ?_ h hne
  intros
  rfl

theorem grown_insert (h : t.insert eps levels polygons = some t') (ht : t.Grown) :
    t'.Grown := by
  refine insert_induction (motive := fun _ t _ t' => t.Grown → t'.Grown) (fun _ _ => id) ?_ h ht
  intro levels t first rest p front back _ ihFront ihBack ht
  exact ⟨rfl, ihFront ht.frontChild, ihBack ht.backChild⟩

/-- A polygon of the tree was there before, or is a piece of one that was inserted
and near the plane of the node at which it stayed. -/
theorem mem_or_near_of_mem_insert (heps : Scalar.epsilon ≤ eps)
    (h : t.insert eps levels polygons = some t') (hr : r ∈ t'.polygons) :
    r ∈ t.polygons ∨ ((∃ q ∈ polygons, r.PieceOf q) ∧
      ∃ p ∈ t'.planes, ∀ x ∈ r.corners, |p.signedDistance x| ≤ eps) := by
  refine insert_induction (motive := fun _ t polygons t' => r ∈ t'.polygons →
    r ∈ t.polygons ∨ ((∃ q ∈ polygons, r.PieceOf q) ∧
      ∃ p ∈ t'.planes, ∀ x ∈ r.corners, |p.signedDistance x| ≤ eps)) (fun _ _ => .inl) ?_ h hr
  intro levels t first rest p front back _ ihFront ihBack hr
  rw [polygons_eq t]
  simp only [polygons_node, planes, Option.toList_some, List.mem_append, List.mem_singleton]
    at hr ⊢
  rcases hr with ((hr | hr) | hr) | hr
  · exact .inl (.inl (.inl hr))
  · obtain ⟨q, hq, hrq⟩ := Plane.mem_onPlane.mp hr
    exact .inr ⟨Plane.exists_pieceOf_onPlane heps hr, p, .inl (.inl rfl),
      (Plane.isSplit_split heps p q).near r hrq⟩
  · rcases ihBack hr with hr | ⟨⟨q, hq, hrq⟩, p', hp', hnear⟩
    · exact .inl (.inl (.inr hr))
    · obtain ⟨q', hq', hqq'⟩ := Plane.exists_pieceOf_back heps hq
      exact .inr ⟨⟨q', hq', hrq.trans hqq'⟩, p', .inr hp', hnear⟩
  · rcases ihFront hr with hr | ⟨⟨q, hq, hrq⟩, p', hp', hnear⟩
    · exact .inl (.inr hr)
    · obtain ⟨q', hq', hqq'⟩ := Plane.exists_pieceOf_front heps hq
      exact .inr ⟨⟨q', hq', hrq.trans hqq'⟩, p', .inl (.inr hp'), hnear⟩

/-- An insertion loses nothing and adds nothing. -/
theorem cover_insert (heps : Scalar.epsilon ≤ eps) (h : t.insert eps levels polygons = some t')
    (hconvex : ∀ q ∈ polygons, q.IsConvex) :
    cover t'.polygons = cover t.polygons ∪ cover polygons := by
  refine insert_induction (motive := fun _ t polygons t' => (∀ q ∈ polygons, q.IsConvex) →
    cover t'.polygons = cover t.polygons ∪ cover polygons) (by simp) ?_ h hconvex
  intro levels t first rest p front back _ ihFront ihBack hconvex
  have hfront := ihFront fun r hr => by
    obtain ⟨q, hq, hrq⟩ := Plane.exists_pieceOf_front heps hr
    exact hrq.isConvex (hconvex q hq)
  have hback := ihBack fun r hr => by
    obtain ⟨q, hq, hrq⟩ := Plane.exists_pieceOf_back heps hr
    exact hrq.isConvex (hconvex q hq)
  rw [← Plane.cover_onPlane_union_front_union_back (p := p) heps hconvex, polygons_eq t,
    polygons_node]
  simp only [cover_append, hfront, hback]
  ext x
  simp only [Set.mem_union]
  tauto

/-! ### The plane that is chosen -/

/-- The cheapest element is one of the list, and costs no more than any of them. -/
theorem cheapest_spec {α : Type} (cost : α → ℕ) (first : α) (rest : List α) :
    cheapest cost first rest ∈ first :: rest ∧
      ∀ a ∈ first :: rest, cost (cheapest cost first rest) ≤ cost a := by
  -- the fold carries the cost of the best element beside it
  have hfold : ∀ (l : List α) (best : α × ℕ), best.2 = cost best.1 →
      (l.foldl (fun best a => let c := cost a; if c < best.2 then (a, c) else best) best).1
          ∈ best.1 :: l ∧
        ∀ a ∈ best.1 :: l, cost
          (l.foldl (fun best a => let c := cost a; if c < best.2 then (a, c) else best) best).1
            ≤ cost a := by
    intro l
    induction l with
    | nil => simp
    | cons b l ih =>
      intro best hbest
      rw [List.foldl_cons]
      dsimp only
      by_cases hlt : cost b < best.2
      · rw [if_pos hlt]
        obtain ⟨hmem, hle⟩ := ih (b, cost b) rfl
        refine ⟨List.mem_cons_of_mem _ hmem, fun a ha => ?_⟩
        rcases List.mem_cons.mp ha with rfl | ha
        · exact (hle b (by simp)).trans (hbest ▸ hlt.le)
        · exact hle a ha
      · rw [if_neg hlt]
        obtain ⟨hmem, hle⟩ := ih best hbest
        refine ⟨?_, fun a ha => ?_⟩
        · rcases List.mem_cons.mp hmem with h | h
          · exact List.mem_cons.mpr (.inl h)
          · exact List.mem_cons_of_mem _ (List.mem_cons_of_mem _ h)
        · rcases List.mem_cons.mp ha with rfl | ha
          · exact hle _ (by simp)
          · rcases List.mem_cons.mp ha with rfl | ha
            · exact (hle best.1 (by simp)).trans (hbest ▸ not_lt.mp hlt)
            · exact hle a (List.mem_cons_of_mem _ ha)
  exact hfold rest (first, cost first) rfl

/-- A plane that is chosen is the plane of one of the polygons. -/
theorem exists_splitter_eq {K : Type} [Scalar K] (eps : K) (first : Polygon K)
    (rest : List (Polygon K)) : ∃ q ∈ first :: rest, splitter eps first rest = q.plane := by
  refine ⟨_, ?_, rfl⟩
  rcases List.mem_cons.mp (cheapest_spec _ first (rest.take (candidateLimit - 1))).1 with h | h
  · exact List.mem_cons.mpr (.inl h)
  · exact List.mem_cons_of_mem _ (List.mem_of_mem_take h)

/-- How many polygons are on which side. -/
theorem tally_eq {K : Type} [Scalar K] (eps : K) (p : Plane K) (l : List (Polygon K)) :
    tally eps p l =
      ⟨l.countP (p.sideOfPolygon eps · = .across), l.countP (p.sideOfPolygon eps · = .front),
        l.countP (p.sideOfPolygon eps · = .back)⟩ := by
  have hfold : ∀ (l : List (Polygon K)) (t : Tally),
      l.foldl (fun t q => t.add (p.sideOfPolygon eps q)) t =
        ⟨t.across + l.countP (p.sideOfPolygon eps · = .across),
          t.front + l.countP (p.sideOfPolygon eps · = .front),
          t.back + l.countP (p.sideOfPolygon eps · = .back)⟩ := by
    intro l
    induction l with
    | nil => simp
    | cons q l ih =>
      intro t
      rw [List.foldl_cons, ih]
      cases h : p.sideOfPolygon eps q <;> simp [Tally.add, h] <;> omega
  rw [tally, hfold]
  simp

/-! ### How many levels an insertion takes -/

open scoped Classical in
/-- Polygons that fit their own planes are all put into a tree within as many levels
as the tree has and they have planes: below the tree, each node uses up the plane
that it takes. -/
theorem exists_insert (heps : Scalar.epsilon ≤ eps) {planes : Finset (Plane ℝ)} (ht : t.Grown)
    (hfits : ∀ q ∈ polygons, q.Fits eps) (hplanes : ∀ q ∈ polygons, q.plane ∈ planes)
    (hlevels : t.levels + planes.card ≤ levels) :
    ∃ t', t.insert eps levels polygons = some t' ∧ t'.levels ≤ t.levels + planes.card := by
  induction levels generalizing t polygons planes with
  | zero =>
    cases polygons with
    | nil => exact ⟨t, insert_nil, by omega⟩
    | cons first rest =>
      have hpos := Finset.card_pos.mpr ⟨_, hplanes first (by simp)⟩
      omega
  | succ levels ih =>
    cases polygons with
    | nil => exact ⟨t, insert_nil, by omega⟩
    | cons first rest =>
      have hfront : ∀ r ∈ ((t.divider eps first rest).splitAll eps (first :: rest)).flatMap
          Pieces.front, r.Fits eps ∧ r.plane ∈ planes ∧ r.plane ≠ t.divider eps first rest := by
        intro r hr
        obtain ⟨q, hq, hrq⟩ := Plane.exists_pieceOf_front heps hr
        exact ⟨hrq.fits (hfits q hq), hrq.plane_eq ▸ hplanes q hq,
          Plane.plane_ne_of_mem_front heps hfits hr⟩
      have hback : ∀ r ∈ ((t.divider eps first rest).splitAll eps (first :: rest)).flatMap
          Pieces.back, r.Fits eps ∧ r.plane ∈ planes ∧ r.plane ≠ t.divider eps first rest := by
        intro r hr
        obtain ⟨q, hq, hrq⟩ := Plane.exists_pieceOf_back heps hr
        exact ⟨hrq.fits (hfits q hq), hrq.plane_eq ▸ hplanes q hq,
          Plane.plane_ne_of_mem_back heps hfits hr⟩
      -- below a node the tree has one level less, below the tree there is one plane less
      obtain ⟨planes', hplanes', hlevelsFront, hlevelsBack⟩ : ∃ planes' : Finset (Plane ℝ),
          (∀ p ∈ planes, p ≠ t.divider eps first rest → p ∈ planes') ∧
          t.frontChild.levels + planes'.card + 1 ≤ t.levels + planes.card ∧
          t.backChild.levels + planes'.card + 1 ≤ t.levels + planes.card := by
        cases t with
        | absent =>
          obtain ⟨q, hq, hsplitter⟩ := exists_splitter_eq eps first rest
          have hmem : divider eps absent first rest ∈ planes := by
            rw [divider_absent, hsplitter]
            exact hplanes q hq
          have herase := Finset.card_erase_add_one hmem
          refine ⟨planes.erase _, fun p hp hne => Finset.mem_erase.mpr ⟨hne, hp⟩, ?_, ?_⟩ <;>
            simp only [frontChild, backChild, Tree.levels] <;> omega
        | node plane own front back =>
          refine ⟨planes, fun p hp _ => hp, ?_, ?_⟩ <;>
            simp only [frontChild, backChild, Tree.levels] <;> omega
      obtain ⟨front, hinsertFront, hfrontLevels⟩ := ih ht.frontChild (fun r hr => (hfront r hr).1)
        (fun r hr => hplanes' _ (hfront r hr).2.1 (hfront r hr).2.2) (by omega)
      obtain ⟨back, hinsertBack, hbackLevels⟩ := ih ht.backChild (fun r hr => (hback r hr).1)
        (fun r hr => hplanes' _ (hback r hr).2.1 (hback r hr).2.2) (by omega)
      refine ⟨_, insert_cons_eq_some.mpr ⟨front, back, hinsertFront, hinsertBack, rfl⟩, ?_⟩
      simp only [Tree.levels]
      omega

end Tree

end Solids
