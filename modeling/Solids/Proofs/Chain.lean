import Solids.Proofs.Flip
import Solids.Proofs.Stall
/-!
# Solids.Proofs.Chain

**Trees of convex solids.** If every face has all the others behind it, the tree of the
faces is a chain: whatever plane is chosen takes its own face, and the others go on to
the back child. A point is inside if it is behind all of the planes.

Main definitions:

* `Tree.IsHull` — each polygon of a list has the others behind it;
* `Tree.IsShell` — the same, but for polygons that share a plane;
* `Tree.IsChain` — no node has a front child.

Main statements:

* `Tree.IsShell.isChain` — the tree of a shell is a chain, and each polygon is on a plane
  of it. The tree of a hull has all planes of the hull: `Tree.IsHull.isChain`;
* `Tree.mem_cover_clipTo_of_lt` — what is far in front of one plane of a chain is never
  clipped;
* `Tree.le_of_mem_cover_clipTo_invert` — what is far in front of one plane of a chain is
  always clipped by the inverse;
* `Tree.exists_levels_insert_invert` — what is behind all planes goes to the end of the
  inverse.
-/

namespace Solids.Tree

variable {eps : ℝ} {levels : ℕ} {t s : Tree ℝ} {l polygons : List (Polygon ℝ)}
  {p : Plane ℝ} {x : Vec3 ℝ}

/-- Each polygon is on its own plane and has all others behind it. -/
structure IsHull (eps : ℝ) (l : List (Polygon ℝ)) : Prop where
  /-- A polygon is on its own plane. -/
  own : ∀ q ∈ l, q.plane.sideOfPolygon eps q = .on
  /-- The others are behind it. -/
  others : ∀ q ∈ l, ∀ r ∈ l, q ≠ r → q.plane.sideOfPolygon eps r = .back

/-- Each polygon is on its own plane, and each of the others is on it too or behind it. -/
structure IsShell (eps : ℝ) (l : List (Polygon ℝ)) : Prop where
  /-- A polygon is on its own plane. -/
  own : ∀ q ∈ l, q.plane.sideOfPolygon eps q = .on
  /-- No other is in front of it, and none across it. -/
  others : ∀ q ∈ l, ∀ r ∈ l,
    q.plane.sideOfPolygon eps r = .on ∨ q.plane.sideOfPolygon eps r = .back

/-- Every node has a plane, and none has a front child. -/
def IsChain : Tree ℝ → Prop
  | .absent => True
  | .node none _ _ _ => False
  | .node (some _) _ front back => front = .absent ∧ back.IsChain

/-! ### Building a chain -/

theorem IsShell.mono (h : IsShell eps l) (hsub : polygons ⊆ l) : IsShell eps polygons where
  own q hq := h.own q (hsub hq)
  others q hq r hr := h.others q (hsub hq) r (hsub hr)

/-- The plane of a polygon of a shell cuts none of them and has none in front. -/
theorem IsShell.splitAll_plane {q : Polygon ℝ} (h : IsShell eps l) (hq : q ∈ l) :
    Pieces.onPlane (q.plane.splitAll eps l) = l.filter (q.plane.sideOfPolygon eps · = .on) ∧
      (q.plane.splitAll eps l).flatMap Pieces.front = [] ∧
      (q.plane.splitAll eps l).flatMap Pieces.back =
        l.filter (q.plane.sideOfPolygon eps · = .back) := by
  have hnotFront : ∀ r ∈ l, q.plane.sideOfPolygon eps r ≠ .front := by
    intro r hr
    rcases h.others q hq r hr with hside | hside <;> simp [hside]
  have hacross : ∀ r ∈ l, q.plane.sideOfPolygon eps r ≠ .across := by
    intro r hr
    rcases h.others q hq r hr with hside | hside <;> simp [hside]
  refine ⟨Plane.onPlane_eq_filter hacross, ?_, Plane.flatMap_back_eq_filter hacross⟩
  rw [Plane.flatMap_front_eq_filter hacross]
  exact List.filter_eq_nil_iff.mpr fun r hr => by simpa using hnotFront r hr

/-- The tree of a shell is a chain. All planes in it are planes of the shell, and each
polygon is on one of them. -/
theorem IsShell.isChain (h : IsShell eps l) (ht : absent.insert eps levels l = some t) :
    t.IsChain ∧ (∀ p ∈ t.planes, ∃ q ∈ l, q.plane = p) ∧
      ∀ q ∈ l, ∃ p ∈ t.planes, p.sideOfPolygon eps q = .on := by
  induction levels generalizing l t with
  | zero =>
    cases l with
    | nil =>
      rw [insert_nil, Option.some.injEq] at ht
      subst ht
      simp [IsChain, planes]
    | cons first rest => cases ht
  | succ levels ih =>
    cases l with
    | nil =>
      rw [insert_nil, Option.some.injEq] at ht
      subst ht
      simp [IsChain, planes]
    | cons first rest =>
      obtain ⟨front, back, hfront, hback, rfl⟩ := insert_cons_eq_some.mp ht
      obtain ⟨q, hq, hsplitter⟩ := exists_splitter_eq eps first rest
      rw [divider_absent, hsplitter] at hfront hback ⊢
      obtain ⟨-, hnoFront, hbehind⟩ := h.splitAll_plane hq
      rw [hnoFront] at hfront
      rw [hbehind] at hback
      obtain rfl : absent = front := by simpa [frontChild] using hfront
      obtain ⟨hchain, hplanes, hon⟩ := ih (h.mono (List.filter_subset_self _)) hback
      simp only [planes, Option.toList_some, List.append_nil, List.mem_append, List.mem_singleton]
      refine ⟨⟨rfl, hchain⟩, ?_, ?_⟩
      · rintro p (rfl | hp)
        · exact ⟨q, hq, rfl⟩
        · obtain ⟨r, hr, rfl⟩ := hplanes p hp
          exact ⟨r, List.mem_of_mem_filter hr, rfl⟩
      · intro r hr
        rcases h.others q hq r hr with hside | hside
        · exact ⟨q.plane, .inl rfl, hside⟩
        · -- what is behind the plane of the node goes on to the back child
          obtain ⟨p, hp, hpr⟩ := hon r (List.mem_filter.mpr ⟨hr, by simpa using hside⟩)
          exact ⟨p, .inr hp, hpr⟩

theorem IsHull.isShell (h : IsHull eps l) : IsShell eps l where
  own := h.own
  others q hq r hr := by
    by_cases hqr : q = r
    · exact .inl (hqr ▸ h.own q hq)
    · exact .inr (h.others q hq r hr hqr)

/-- The tree of a hull is a chain, and has the planes of the hull. -/
theorem IsHull.isChain (h : IsHull eps l) (ht : absent.insert eps levels l = some t) :
    t.IsChain ∧ ∀ p, p ∈ t.planes ↔ ∃ q ∈ l, q.plane = p := by
  obtain ⟨hchain, hplanes, hon⟩ := h.isShell.isChain ht
  refine ⟨hchain, fun p => ⟨hplanes p, ?_⟩⟩
  rintro ⟨q, hq, rfl⟩
  obtain ⟨p, hp, hpq⟩ := hon q hq
  obtain ⟨r, hr, rfl⟩ := hplanes p hp
  by_cases hrq : r = q
  · exact hrq ▸ hp
  · rw [h.others r hr q hq hrq] at hpq
    cases hpq

/-! ### Clipping by a chain -/

/-- What is far in front of one plane of a chain is never clipped. -/
theorem mem_cover_clipped_of_lt (heps : Scalar.epsilon ≤ eps)
    (hconvex : ∀ q ∈ polygons, q.IsConvex) (hchain : t.IsChain) (hp : p ∈ t.planes)
    (hx : eps < p.signedDistance x) (hmem : x ∈ cover polygons) :
    x ∈ cover (t.clipped eps polygons) := by
  induction t generalizing polygons with
  | absent => cases hp
  | node plane own front back _ ih =>
    cases plane with
    | none => cases hchain
    | some p' =>
      obtain ⟨rfl, hback⟩ := hchain
      rw [← p'.cover_inFront_union_behind heps hconvex] at hmem
      simp only [clipped, isAbsent, if_true, cover_append, Set.mem_union, cover_nil]
      rcases hmem with hmem | hmem
      · exact .inl (.inl hmem)
      · refine .inl (.inr (ih (fun r hr => ?_) hback ?_ hmem))
        · obtain ⟨q, hq, hrq⟩ := Plane.exists_pieceOf_behind heps hr
          exact hrq.isConvex (hconvex q hq)
        · simp only [planes, Option.toList_some, List.mem_append, List.mem_singleton,
            List.not_mem_nil, or_false] at hp
          -- behind the plane of the node there is nothing that far in front of it
          refine hp.resolve_left fun heq => ?_
          exact absurd (Plane.le_of_mem_cover_behind heps hmem) (not_le.mpr (heq ▸ hx))

theorem mem_cover_clipTo_of_lt (heps : Scalar.epsilon ≤ eps)
    (hconvex : ∀ q ∈ s.polygons, q.IsConvex) (hchain : t.IsChain) (hp : p ∈ t.planes)
    (hx : eps < p.signedDistance x) (hmem : x ∈ cover s.polygons) :
    x ∈ cover (s.clipTo eps t).polygons := by
  induction s with
  | absent => exact hmem
  | node plane own front back ihFront ihBack =>
    simp only [polygons_node, List.mem_append] at hconvex
    simp only [polygons_node, cover_append, Set.mem_union] at hmem
    simp only [clipTo, polygons_node, cover_append, Set.mem_union, clip_eq_clipped]
    rcases hmem with (hmem | hmem) | hmem
    · exact .inl (.inl (mem_cover_clipped_of_lt heps (fun q hq => hconvex q (.inl (.inl hq)))
        hchain hp hx hmem))
    · exact .inl (.inr (ihBack (fun q hq => hconvex q (.inl (.inr hq))) hmem))
    · exact .inr (ihFront (fun q hq => hconvex q (.inr hq)) hmem)

/-! ### Clipping by the inverse of a chain -/

/-- What is far in front of one plane of a chain is always clipped by the inverse. -/
theorem le_of_mem_cover_clipped_invert (heps : Scalar.epsilon ≤ eps) (hchain : t.IsChain)
    (hmem : x ∈ cover (t.invert.clipped eps polygons)) (hp : p ∈ t.planes) :
    p.signedDistance x ≤ eps := by
  induction t generalizing polygons with
  | absent => cases hp
  | node plane own front back _ ih =>
    cases plane with
    | none => cases hchain
    | some p' =>
      obtain ⟨rfl, hback⟩ := hchain
      simp only [invert, Option.map_some, clipped, cover_append, cover_nil, Set.mem_union,
        Set.mem_empty_iff_false, or_false] at hmem
      have hfront : x ∈ cover (Pieces.inFront (p'.flip.splitAll eps polygons)) := by
        rcases hmem with hmem | hmem
        · split at hmem
          · exact hmem
          · simp at hmem
        · exact cover_clipped_subset heps hmem
      have hle := Plane.le_of_mem_cover_inFront heps hfront
      rw [Plane.flip_signedDistance] at hle
      simp only [planes, Option.toList_some, List.mem_append, List.mem_singleton,
        List.not_mem_nil, or_false] at hp
      rcases hp with rfl | hp
      · linarith
      · cases back with
        | absent => cases hp
        | node plane own front back =>
          exact ih hback (hmem.resolve_left (by simp [invert, isAbsent])) hp

theorem le_of_mem_cover_clipTo_invert (heps : Scalar.epsilon ≤ eps) (hchain : t.IsChain)
    (hmem : x ∈ cover (s.clipTo eps t.invert).polygons) (hp : p ∈ t.planes) :
    p.signedDistance x ≤ eps := by
  induction s with
  | absent => simp [clipTo] at hmem
  | node plane own front back ihFront ihBack =>
    simp only [clipTo, polygons_node, cover_append, Set.mem_union, clip_eq_clipped] at hmem
    rcases hmem with (hmem | hmem) | hmem
    · exact le_of_mem_cover_clipped_invert heps hchain hmem hp
    · exact ihBack hmem
    · exact ihFront hmem

/-- What is behind all planes of a chain is not clipped by the inverse. -/
theorem clipped_invert_eq_self (heps : 0 ≤ eps) (hchain : t.IsChain)
    (hpresent : t.isAbsent = false)
    (h : ∀ p ∈ t.planes, ∀ q ∈ polygons, p.sideOfPolygon eps q = .back) :
    t.invert.clipped eps polygons = polygons := by
  induction t with
  | absent => cases hpresent
  | node plane own front back _ ih =>
    cases plane with
    | none => cases hchain
    | some p =>
      obtain ⟨rfl, hback⟩ := hchain
      simp only [planes, Option.toList_some, List.mem_append, List.mem_singleton,
        List.not_mem_nil, or_false] at h
      have hsplit : p.flip.splitAll eps polygons = polygons.map fun q => { front := [q] } := by
        refine List.map_congr_left fun q hq => Plane.split_front ?_
        rw [Plane.sideOfPolygon_flip heps, h p (.inl rfl) q hq]
        rfl
      have hfront : Pieces.inFront (p.flip.splitAll eps polygons) = polygons := by
        simp [hsplit, Pieces.inFront, List.flatMap_map]
      simp only [invert, Option.map_some, clipped, hfront, List.append_nil]
      cases back with
      | absent => simp [invert, isAbsent, clipped]
      | node plane own front back =>
        rw [ih hback rfl fun p hp => h p (.inr hp)]
        simp [invert, isAbsent]

theorem clipTo_invert_eq_self (heps : 0 ≤ eps) (hchain : t.IsChain)
    (hpresent : t.isAbsent = false)
    (h : ∀ p ∈ t.planes, ∀ q ∈ s.polygons, p.sideOfPolygon eps q = .back) :
    s.clipTo eps t.invert = s := by
  induction s with
  | absent => rfl
  | node plane own front back ihFront ihBack =>
    simp only [polygons_node, List.mem_append] at h
    rw [clipTo, clip_eq_clipped,
      clipped_invert_eq_self heps hchain hpresent fun p hp q hq => h p hp q (.inl (.inl hq)),
      ihFront fun p hp q hq => h p hp q (.inr hq),
      ihBack fun p hp q hq => h p hp q (.inl (.inr hq))]

/-- A difference keeps all of a solid that is behind all planes of a chain. -/
theorem keptByDifference_snd_eq (heps : 0 ≤ eps) (hchain : t.IsChain)
    (hpresent : t.isAbsent = false)
    (h : ∀ p ∈ t.planes, ∀ q ∈ s.polygons, p.sideOfPolygon eps q = .back) :
    (keptByDifference eps t s).2 = s := by
  have hinverse : ∀ p ∈ t.planes, ∀ r ∈ s.invert.polygons, p.sideOfPolygon eps r = .back := by
    intro p hp r hr
    obtain ⟨q, hq, rfl⟩ := mem_polygons_invert.mp hr
    rw [(Polygon.IsOpposite.flip q).sideOfPolygon_eq]
    exact h p hp q hq
  rw [keptByDifference, keptByUnion_eq, clipTo_invert_eq_self heps hchain hpresent h,
    clipTo_invert_eq_self heps hchain hpresent hinverse, invert_invert]

/-! ### Inserting into the inverse of a chain -/

/-- What is behind all planes of a chain goes to the end of the inverse, and from there on
it is put in as if there was nothing before. -/
theorem exists_levels_insert_invert (solid : Tree ℝ) (heps : 0 ≤ eps) (hchain : t.IsChain)
    (h : ∀ p ∈ t.planes, ∀ q ∈ l, p.sideOfPolygon eps q = .back)
    (hends : ∃ levels, (absent.insert eps levels l).isSome) :
    ∃ levels, ((t.invert.clipTo eps solid).insert eps levels l).isSome := by
  induction t with
  | absent => exact hends
  | node plane own front back _ ih =>
    cases plane with
    | none => cases hchain
    | some p =>
      obtain ⟨rfl, hback⟩ := hchain
      simp only [planes, Option.toList_some, List.mem_append, List.mem_singleton,
        List.not_mem_nil, or_false] at h
      obtain ⟨levels, hlevels⟩ := ih hback fun p hp => h p (.inr hp)
      cases l with
      | nil => exact ⟨0, by simp⟩
      | cons first rest =>
        have hside : ∀ q ∈ first :: rest, p.flip.sideOfPolygon eps q = .front := by
          intro q hq
          rw [Plane.sideOfPolygon_flip heps, h p (.inl rfl) q hq]
          rfl
        obtain ⟨-, hahead, hbehind⟩ := Plane.splitAll_of_side hside (by decide)
        obtain ⟨joined, hjoined⟩ := Option.isSome_iff_exists.mp hlevels
        refine ⟨levels + 1, Option.isSome_iff_exists.mpr ⟨_, insert_cons_eq_some.mpr
          ⟨joined, absent, ?_, ?_, rfl⟩⟩⟩
        · show (back.invert.clipTo eps solid).insert eps levels
            ((p.flip.splitAll eps (first :: rest)).flatMap Pieces.front) = some joined
          rw [hahead, if_pos rfl]
          exact hjoined
        · show absent.insert eps levels
            ((p.flip.splitAll eps (first :: rest)).flatMap Pieces.back) = some absent
          rw [hbehind, if_neg (by decide), insert_nil]

end Solids.Tree
