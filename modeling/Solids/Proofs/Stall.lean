import Solids.Proofs.Boolean
/-!
# Solids.Proofs.Stall

**When building a tree ends.** Not always: where the plane that is chosen has all
polygons in front of it, all of them go on to a node of their own, and there the same
plane is chosen again.

Main definitions:

* `Plane.Settles`, `Plane.SettledBut` — a plane that divides nothing any more, and a list with few
  other planes;
* `Tree.Reaches` — the lists of polygons that come to a node without a plane;
* `Tree.IsStalled` — a list that a node hands on as it is;
* `Tree.Stalls` — such a list is reached;
* `Tree.StallsBelow` — such a list comes to a missing child of a tree.

Main statements:

* `Tree.exists_levels_iff` — building ends unless it stalls;
* `Tree.exists_levels_iff_of_plane_eq` — if all polygons carry one plane, building ends
  only if they are all on it;
* `Tree.exists_levels_insert_iff` — an insertion ends unless it stalls below the tree;
* `Mesh.exists_levels_combineWith_iff` — when an operation on meshes ends.

A plane that is not chosen for the first time divides nothing any more: all that is left
is on one side of it. Then either the list gets shorter, or it stalls.
-/

namespace Solids

/-! ### Lists that a plane does not divide -/

namespace Plane

variable {eps : ℝ} {p : Plane ℝ} {q r : Polygon ℝ} {polygons : List (Polygon ℝ)}

/-- What is collected of polygons that are kept whole on one side, and not on the others. -/
theorem flatMap_splitAll_eq_filter {pieces : Pieces ℝ → List (Polygon ℝ)} {side : Side}
    (h : ∀ q ∈ polygons,
      pieces (p.split eps q) = if p.sideOfPolygon eps q = side then [q] else []) :
    (p.splitAll eps polygons).flatMap pieces
      = polygons.filter (p.sideOfPolygon eps · = side) := by
  induction polygons with
  | nil => rfl
  | cons q l ih =>
    rw [List.forall_mem_cons] at h
    simp only [splitAll] at ih
    rw [splitAll, List.map_cons, List.flatMap_cons, ih h.2, h.1, List.filter_cons]
    by_cases hside : p.sideOfPolygon eps q = side <;> simp [hside]

/-- A polygon that does not lie across the plane is kept whole, on its side. -/
theorem split_of_ne_across (h : p.sideOfPolygon eps q ≠ .across) :
    (p.split eps q).onFront ++ (p.split eps q).onBack =
        (if p.sideOfPolygon eps q = .on then [q] else []) ∧
      (p.split eps q).front = (if p.sideOfPolygon eps q = .front then [q] else []) ∧
      (p.split eps q).back = (if p.sideOfPolygon eps q = .back then [q] else []) := by
  cases hside : p.sideOfPolygon eps q with
  | on =>
    rw [split_on hside]
    split <;> simp
  | front => simp [split_front hside]
  | back => simp [split_back hside]
  | across => exact absurd hside h

theorem onPlane_eq_filter (h : ∀ q ∈ polygons, p.sideOfPolygon eps q ≠ .across) :
    Pieces.onPlane (p.splitAll eps polygons)
      = polygons.filter (p.sideOfPolygon eps · = .on) :=
  flatMap_splitAll_eq_filter fun q hq => (split_of_ne_across (h q hq)).1

theorem flatMap_front_eq_filter
    (h : ∀ q ∈ polygons, p.sideOfPolygon eps q ≠ .across) :
    (p.splitAll eps polygons).flatMap Pieces.front
      = polygons.filter (p.sideOfPolygon eps · = .front) :=
  flatMap_splitAll_eq_filter fun q hq => (split_of_ne_across (h q hq)).2.1

theorem flatMap_back_eq_filter
    (h : ∀ q ∈ polygons, p.sideOfPolygon eps q ≠ .across) :
    (p.splitAll eps polygons).flatMap Pieces.back
      = polygons.filter (p.sideOfPolygon eps · = .back) :=
  flatMap_splitAll_eq_filter fun q hq => (split_of_ne_across (h q hq)).2.2

/-- Of polygons that are all on one side everything is collected there, and nothing elsewhere. -/
theorem splitAll_of_side {side : Side} (h : ∀ q ∈ polygons, p.sideOfPolygon eps q = side)
    (hside : side ≠ .across) :
    Pieces.onPlane (p.splitAll eps polygons) = (if side = .on then polygons else []) ∧
      (p.splitAll eps polygons).flatMap Pieces.front = (if side = .front then polygons else []) ∧
      (p.splitAll eps polygons).flatMap Pieces.back = if side = .back then polygons else [] := by
  have hacross : ∀ q ∈ polygons, p.sideOfPolygon eps q ≠ .across := fun q hq => h q hq ▸ hside
  have hfilter (kept : Side) : polygons.filter (p.sideOfPolygon eps · = kept) =
      if side = kept then polygons else [] := by
    split
    · next heq => exact List.filter_eq_self.mpr fun q hq => by simp [h q hq, heq]
    · next hne => exact List.filter_eq_nil_iff.mpr fun q hq => by simp [h q hq, hne]
  exact ⟨(onPlane_eq_filter hacross).trans (hfilter .on),
    (flatMap_front_eq_filter hacross).trans (hfilter .front),
    (flatMap_back_eq_filter hacross).trans (hfilter .back)⟩

/-- A piece in front is in front as a whole. -/
theorem sideOfPolygon_of_mem_front (heps : Scalar.epsilon ≤ eps)
    (h : r ∈ (p.split eps q).front) : p.sideOfPolygon eps r = .front := by
  have hpos : (0 : ℝ) < Scalar.epsilon := Scalar.epsilon_pos
  cases hside : p.sideOfPolygon eps q with
  | on =>
    rw [split_on hside] at h
    split at h <;> cases h
  | back =>
    rw [split_back hside] at h
    cases h
  | front =>
    rw [split_front hside, List.mem_singleton] at h
    rw [h, hside]
  | across =>
    rw [split_across heps hside, List.mem_singleton] at h
    subst h
    obtain ⟨⟨f, hf, hfside⟩, -⟩ := sideOfAll_eq_across.mp hside
    have hkept : f ∈ p.part eps .back q.vertices := mem_part_of_mem hf (by simp [hfside])
    have hnoback : p.sideOfPolygon eps (p.piece eps .back q) = .on ∨
        p.sideOfPolygon eps (p.piece eps .back q) = .front :=
      sideOfAll_mem_front.mpr fun v hv hback => by
        rw [sideOf_eq_back] at hback
        linarith [le_of_mem_part_back heps hv]
    refine hnoback.resolve_left fun hon => ?_
    have hfon := sideOfAll_eq_on.mp hon f hkept
    simp [hfside] at hfon

/-- A piece behind is behind as a whole. -/
theorem sideOfPolygon_of_mem_back (heps : Scalar.epsilon ≤ eps)
    (h : r ∈ (p.split eps q).back) : p.sideOfPolygon eps r = .back := by
  have hpos : (0 : ℝ) < Scalar.epsilon := Scalar.epsilon_pos
  cases hside : p.sideOfPolygon eps q with
  | on =>
    rw [split_on hside] at h
    split at h <;> cases h
  | front =>
    rw [split_front hside] at h
    cases h
  | back =>
    rw [split_back hside, List.mem_singleton] at h
    rw [h, hside]
  | across =>
    rw [split_across heps hside, List.mem_singleton] at h
    subst h
    obtain ⟨-, b, hb, hbside⟩ := sideOfAll_eq_across.mp hside
    have hkept : b ∈ p.part eps .front q.vertices := mem_part_of_mem hb (by simp [hbside])
    have hnofront : p.sideOfPolygon eps (p.piece eps .front q) = .on ∨
        p.sideOfPolygon eps (p.piece eps .front q) = .back :=
      sideOfAll_mem_back.mpr fun v hv hfront => by
        rw [sideOf_eq_front (hpos.le.trans heps)] at hfront
        linarith [le_of_mem_part_front heps hv]
    refine hnofront.resolve_left fun hon => ?_
    have hbon := sideOfAll_eq_on.mp hon b hkept
    simp [hbside] at hbon

/-- All polygons are on the plane or on the same side of it. -/
def Settles (eps : ℝ) (p : Plane ℝ) (polygons : List (Polygon ℝ)) : Prop :=
  (∀ q ∈ polygons, ∀ x ∈ q.corners, -eps ≤ p.signedDistance x) ∨
    ∀ q ∈ polygons, ∀ x ∈ q.corners, p.signedDistance x ≤ eps

theorem Settles.pieces (h : p.Settles eps polygons) {l : List (Polygon ℝ)}
    (hl : ∀ r ∈ l, ∃ q ∈ polygons, r.PieceOf q) : p.Settles eps l := by
  refine h.imp (fun h r hr => ?_) fun h r hr => ?_
  · obtain ⟨q, hq, hrq⟩ := hl r hr
    exact hrq.forall_corners (p.convex_ge (-eps)) (h q hq)
  · obtain ⟨q, hq, hrq⟩ := hl r hr
    exact hrq.forall_corners (p.convex_le eps) (h q hq)

theorem Settles.sideOfPolygon_ne_across (heps : 0 ≤ eps) (h : p.Settles eps polygons)
    (hq : q ∈ polygons) : p.sideOfPolygon eps q ≠ .across := by
  intro hside
  obtain ⟨⟨f, hf, hfside⟩, b, hb, hbside⟩ := sideOfAll_eq_across.mp hside
  rw [sideOf_eq_front heps] at hfside
  rw [sideOf_eq_back] at hbside
  rcases h with h | h
  · linarith [h q hq b.pos (Polygon.pos_mem_corners hb)]
  · linarith [h q hq f.pos (Polygon.pos_mem_corners hf)]

theorem settles_front (heps : Scalar.epsilon ≤ eps) :
    p.Settles eps ((p.splitAll eps polygons).flatMap Pieces.front) := by
  refine .inl fun r hr x hx => ?_
  obtain ⟨q, -, hr⟩ := mem_front.mp hr
  exact (isSplit_split heps p q).ahead r hr x hx

theorem settles_back (heps : Scalar.epsilon ≤ eps) :
    p.Settles eps ((p.splitAll eps polygons).flatMap Pieces.back) := by
  refine .inr fun r hr x hx => ?_
  obtain ⟨q, -, hr⟩ := mem_back.mp hr
  exact (isSplit_split heps p q).behind r hr x hx

/-- The planes of the polygons, but for some, have all of the polygons on one side. -/
def SettledBut (eps : ℝ) (unused : Finset (Plane ℝ)) (polygons : List (Polygon ℝ)) : Prop :=
  ∀ q ∈ polygons, q.plane ∈ unused ∨ q.plane.Settles eps polygons

theorem SettledBut.pieces {unused : Finset (Plane ℝ)} (h : SettledBut eps unused polygons)
    {l : List (Polygon ℝ)} (hl : ∀ r ∈ l, ∃ q ∈ polygons, r.PieceOf q) :
    SettledBut eps unused l := by
  intro r hr
  obtain ⟨q, hq, hrq⟩ := hl r hr
  rw [hrq.plane_eq]
  exact (h q hq).imp_right fun h => h.pieces hl

open scoped Classical in
theorem SettledBut.erase {unused : Finset (Plane ℝ)} (h : SettledBut eps unused polygons)
    (hp : p.Settles eps polygons) : SettledBut eps (unused.erase p) polygons := by
  intro q hq
  by_cases heq : q.plane = p
  · exact .inr (heq ▸ hp)
  · exact (h q hq).imp_left fun h => Finset.mem_erase.mpr ⟨heq, h⟩

end Plane

namespace Tree

variable {eps : ℝ} {levels : ℕ} {t t' : Tree ℝ} {polygons l : List (Polygon ℝ)}
  {first : Polygon ℝ} {rest : List (Polygon ℝ)} {p : Plane ℝ}

/-- More levels than suffice do not change the tree. -/
theorem insert_mono {levels' : ℕ} (h : t.insert eps levels polygons = some t')
    (hle : levels ≤ levels') : t.insert eps levels' polygons = some t' := by
  refine insert_induction (motive := fun levels t polygons t' => ∀ levels', levels ≤ levels' →
    t.insert eps levels' polygons = some t') (by simp) ?_ h levels' hle
  rintro levels t first rest p front back rfl ihFront ihBack levels' hle
  obtain ⟨levels', rfl⟩ : ∃ k, levels' = k + 1 := ⟨levels' - 1, by omega⟩
  exact insert_cons_eq_some.mpr ⟨front, back, ihFront levels' (by omega),
    ihBack levels' (by omega), rfl⟩

/-! ### Stalled lists -/

/-- The lists of polygons that come to a node without a plane when a tree is built. -/
inductive Reaches (eps : ℝ) (polygons : List (Polygon ℝ)) : List (Polygon ℝ) → Prop where
  | refl : Reaches eps polygons polygons
  | front {first : Polygon ℝ} {rest : List (Polygon ℝ)} :
    Reaches eps polygons (first :: rest) → Reaches eps polygons
      (((splitter eps first rest).splitAll eps (first :: rest)).flatMap Pieces.front)
  | back {first : Polygon ℝ} {rest : List (Polygon ℝ)} :
    Reaches eps polygons (first :: rest) → Reaches eps polygons
      (((splitter eps first rest).splitAll eps (first :: rest)).flatMap Pieces.back)

/-- All polygons are in front of the plane that is chosen for them, or all behind. -/
def IsStalled (eps : ℝ) : List (Polygon ℝ) → Prop
  | [] => False
  | first :: rest =>
    (∀ q ∈ first :: rest, (splitter eps first rest).sideOfPolygon eps q = .front) ∨
      ∀ q ∈ first :: rest, (splitter eps first rest).sideOfPolygon eps q = .back

/-- A stalled list is reached. -/
def Stalls (eps : ℝ) (polygons : List (Polygon ℝ)) : Prop :=
  ∃ l, Reaches eps polygons l ∧ IsStalled eps l

theorem Reaches.trans {l' : List (Polygon ℝ)} (h : Reaches eps polygons l)
    (h' : Reaches eps l l') : Reaches eps polygons l' := by
  induction h' with
  | refl => exact h
  | front _ ih => exact ih.front
  | back _ ih => exact ih.back

/-- A stalled list is never put into a tree. -/
theorem insert_eq_none_of_isStalled (h : IsStalled eps l) (levels : ℕ) :
    absent.insert eps levels l = none := by
  induction levels with
  | zero =>
    cases l with
    | nil => cases h
    | cons first rest => rfl
  | succ levels ih =>
    cases l with
    | nil => cases h
    | cons first rest =>
      rw [← Option.not_isSome_iff_eq_none, Option.isSome_iff_exists]
      rintro ⟨t, ht⟩
      obtain ⟨front, back, hfront, hback, -⟩ := insert_cons_eq_some.mp ht
      rw [divider_absent] at hfront hback
      rcases h with h | h
      · obtain ⟨-, hall, -⟩ := Plane.splitAll_of_side h (by decide)
        rw [hall, if_pos rfl] at hfront
        exact Option.some_ne_none _ (hfront.symm.trans ih)
      · obtain ⟨-, -, hall⟩ := Plane.splitAll_of_side h (by decide)
        rw [hall, if_pos rfl] at hback
        exact Option.some_ne_none _ (hback.symm.trans ih)

/-- An insertion ends if it does on either side of the plane that it divides by. -/
theorem exists_levels_cons_iff : (∃ levels, (t.insert eps levels (first :: rest)).isSome) ↔
    (∃ levels, (t.frontChild.insert eps levels (((t.divider eps first rest).splitAll eps
      (first :: rest)).flatMap Pieces.front)).isSome) ∧
    ∃ levels, (t.backChild.insert eps levels (((t.divider eps first rest).splitAll eps
      (first :: rest)).flatMap Pieces.back)).isSome := by
  simp only [Option.isSome_iff_exists]
  constructor
  · rintro ⟨levels, t', h⟩
    cases levels with
    | zero => cases h
    | succ levels =>
      obtain ⟨front, back, hfront, hback, -⟩ := insert_cons_eq_some.mp h
      exact ⟨⟨levels, front, hfront⟩, levels, back, hback⟩
  · rintro ⟨⟨n, front, hfront⟩, m, back, hback⟩
    exact ⟨max n m + 1, _, insert_cons_eq_some.mpr ⟨front, back,
      insert_mono hfront (le_max_left n m), insert_mono hback (le_max_right n m), rfl⟩⟩

/-- What is reached by a building that ends is put into a tree too. -/
theorem exists_levels_of_reaches (h : Reaches eps polygons l)
    (hends : ∃ levels, (absent.insert eps levels polygons).isSome) :
    ∃ levels, (absent.insert eps levels l).isSome := by
  induction h with
  | refl => exact hends
  | front _ ih => exact (exists_levels_cons_iff.mp ih).1
  | back _ ih => exact (exists_levels_cons_iff.mp ih).2

open scoped Classical in
/-- Building ends if nothing stalled is reached. What is left to do is measured by the
planes that do not have everything on one side yet, and then by the polygons. -/
theorem exists_levels_of_not_stalls (heps : Scalar.epsilon ≤ eps) (l : List (Polygon ℝ))
    (unused : Finset (Plane ℝ)) (hplanes : Plane.SettledBut eps unused l)
    (h : ¬ Stalls eps l) : ∃ levels, (absent.insert eps levels l).isSome := by
  induction hn : unused.card using Nat.strong_induction_on generalizing unused l with
  | _ n ihPlanes =>
  induction hm : l.length using Nat.strong_induction_on generalizing l with
  | _ m ihLength =>
  cases l with
  | nil => exact ⟨0, by simp⟩
  | cons first rest =>
    have hstallsFront : ¬ Stalls eps (((splitter eps first rest).splitAll eps
        (first :: rest)).flatMap Pieces.front) :=
      fun ⟨l, hl, hstalled⟩ => h ⟨l, Reaches.refl.front.trans hl, hstalled⟩
    have hstallsBack : ¬ Stalls eps (((splitter eps first rest).splitAll eps
        (first :: rest)).flatMap Pieces.back) :=
      fun ⟨l, hl, hstalled⟩ => h ⟨l, Reaches.refl.back.trans hl, hstalled⟩
    by_cases hunused : splitter eps first rest ∈ unused
    · -- the plane is chosen for the first time; either child has everything on one side of it
      have hcard : (unused.erase (splitter eps first rest)).card < n :=
        hn ▸ Finset.card_erase_lt_of_mem hunused
      have hfront := (hplanes.pieces fun r => Plane.exists_pieceOf_front heps).erase
        (Plane.settles_front (p := splitter eps first rest) heps)
      have hback := (hplanes.pieces fun r => Plane.exists_pieceOf_back heps).erase
        (Plane.settles_back (p := splitter eps first rest) heps)
      exact exists_levels_cons_iff.mpr ⟨ihPlanes _ hcard _ _ hfront hstallsFront rfl,
        ihPlanes _ hcard _ _ hback hstallsBack rfl⟩
    · -- the plane has everything on one side already, but not everything strictly
      obtain ⟨q, hq, hsplitter⟩ := exists_splitter_eq eps first rest
      have hsettles := (hplanes q hq).resolve_left (hsplitter ▸ hunused)
      rw [← hsplitter] at hsettles
      have hacross := fun q hq => hsettles.sideOfPolygon_ne_across (q := q)
        (Scalar.epsilon_pos.le.trans heps) hq
      have hstalled : ¬ IsStalled eps (first :: rest) := fun hs => h ⟨_, .refl, hs⟩
      simp only [IsStalled, not_or, not_forall] at hstalled
      obtain ⟨⟨q₁, hq₁, hside₁⟩, q₂, hq₂, hside₂⟩ := hstalled
      have hchild : ∀ side, (∃ q ∈ first :: rest,
          (splitter eps first rest).sideOfPolygon eps q ≠ side) →
          ¬ Stalls eps ((first :: rest).filter
            ((splitter eps first rest).sideOfPolygon eps · = side)) →
          ∃ levels, (absent.insert eps levels ((first :: rest).filter
            ((splitter eps first rest).sideOfPolygon eps · = side))).isSome := by
        rintro side ⟨q, hq, hside⟩ hstalls
        have hlength : ((first :: rest).filter
            ((splitter eps first rest).sideOfPolygon eps · = side)).length
            < (first :: rest).length :=
          List.length_filter_lt_length_iff_exists.mpr ⟨q, hq, by simpa using hside⟩
        have hmem : ∀ r ∈ (first :: rest).filter
            ((splitter eps first rest).sideOfPolygon eps · = side), r ∈ first :: rest :=
          fun r hr => List.mem_of_mem_filter hr
        exact ihLength _ (hm ▸ hlength) _
          (hplanes.pieces fun r hr => ⟨r, hmem r hr, .refl r⟩) hstalls rfl
      rw [Plane.flatMap_front_eq_filter hacross] at hstallsFront
      rw [Plane.flatMap_back_eq_filter hacross] at hstallsBack
      exact exists_levels_cons_iff.mpr
        ⟨Plane.flatMap_front_eq_filter hacross ▸ hchild _ ⟨q₁, hq₁, hside₁⟩ hstallsFront,
        Plane.flatMap_back_eq_filter hacross ▸ hchild _ ⟨q₂, hq₂, hside₂⟩ hstallsBack⟩

open scoped Classical in
/-- **Building ends unless it stalls.** -/
theorem exists_levels_iff (heps : Scalar.epsilon ≤ eps) (l : List (Polygon ℝ)) :
    (∃ levels, (absent.insert eps levels l).isSome) ↔ ¬ Stalls eps l := by
  constructor
  · rintro hends ⟨l', hl', hstalled⟩
    obtain ⟨levels, h⟩ := exists_levels_of_reaches hl' hends
    simp [insert_eq_none_of_isStalled hstalled levels] at h
  · refine exists_levels_of_not_stalls heps l (l.map Polygon.plane).toFinset fun q hq => .inl ?_
    rw [List.mem_toFinset]
    exact List.mem_map_of_mem hq

/-! ### Polygons that carry one plane -/

/-- Polygons that are all on the plane that is chosen make a single node. -/
theorem insert_eq_of_splitter (levels : ℕ)
    (h : ∀ q ∈ first :: rest, (splitter eps first rest).sideOfPolygon eps q = .on) :
    absent.insert eps (levels + 1) (first :: rest)
      = some (node (some (splitter eps first rest)) (first :: rest) absent absent) := by
  obtain ⟨hown, hfront, hback⟩ := Plane.splitAll_of_side h (by decide)
  refine insert_cons_eq_some.mpr ⟨absent, absent, ?_, ?_, ?_⟩
  · rw [divider_absent, hfront, if_neg (by decide)]
    exact insert_nil
  · rw [divider_absent, hback, if_neg (by decide)]
    exact insert_nil
  · rw [divider_absent, hown, if_pos rfl]
    rfl

theorem splitter_eq_of_plane_eq (h : ∀ q ∈ first :: rest, q.plane = p) :
    splitter eps first rest = p := by
  obtain ⟨q, hq, hsplitter⟩ := exists_splitter_eq eps first rest
  rw [hsplitter, h q hq]

/-- Polygons that carry one plane are stalled if they are all in front of it, or all behind it. -/
theorem isStalled_of_plane_eq (hne : l ≠ []) (h : ∀ q ∈ l, q.plane = p)
    (hside : (∀ q ∈ l, p.sideOfPolygon eps q = .front) ∨
      ∀ q ∈ l, p.sideOfPolygon eps q = .back) : IsStalled eps l := by
  obtain ⟨first, rest, rfl⟩ := List.exists_cons_of_ne_nil hne
  rwa [IsStalled, splitter_eq_of_plane_eq h]

/-- If all polygons carry one plane, building a tree of them ends only if they are all on
it. -/
theorem exists_levels_iff_of_plane_eq (heps : Scalar.epsilon ≤ eps)
    (h : ∀ q ∈ l, q.plane = p) : (∃ levels, (absent.insert eps levels l).isSome) ↔
      ∀ q ∈ l, p.sideOfPolygon eps q = .on := by
  rw [exists_levels_iff heps]
  constructor
  · intro hstalls q hq
    obtain ⟨first, rest, rfl⟩ := List.exists_cons_of_ne_nil (List.ne_nil_of_mem hq)
    have hsplitter : splitter eps first rest = p := splitter_eq_of_plane_eq h
    have hfront : (p.splitAll eps (first :: rest)).flatMap Pieces.front = [] := by
      by_contra hne
      refine hstalls ⟨_, hsplitter ▸ Reaches.refl.front,
        isStalled_of_plane_eq (p := p) hne (fun r hr => ?_) (.inl fun r hr => ?_)⟩
      · obtain ⟨q', hq', hrq⟩ := Plane.exists_pieceOf_front heps hr
        exact hrq.plane_eq.trans (h q' hq')
      · obtain ⟨q', -, hr⟩ := Plane.mem_front.mp hr
        exact Plane.sideOfPolygon_of_mem_front heps hr
    have hback : (p.splitAll eps (first :: rest)).flatMap Pieces.back = [] := by
      by_contra hne
      refine hstalls ⟨_, hsplitter ▸ Reaches.refl.back,
        isStalled_of_plane_eq (p := p) hne (fun r hr => ?_) (.inr fun r hr => ?_)⟩
      · obtain ⟨q', hq', hrq⟩ := Plane.exists_pieceOf_back heps hr
        exact hrq.plane_eq.trans (h q' hq')
      · obtain ⟨q', -, hr⟩ := Plane.mem_back.mp hr
        exact Plane.sideOfPolygon_of_mem_back heps hr
    have hnofront (r : Polygon ℝ) : r ∉ (p.split eps q).front := fun hr =>
      List.eq_nil_iff_forall_not_mem.mp hfront r (Plane.mem_front.mpr ⟨q, hq, hr⟩)
    have hnoback (r : Polygon ℝ) : r ∉ (p.split eps q).back := fun hr =>
      List.eq_nil_iff_forall_not_mem.mp hback r (Plane.mem_back.mpr ⟨q, hq, hr⟩)
    cases hside : p.sideOfPolygon eps q with
    | on => rfl
    | front => exact absurd (by simp [Plane.split_front hside]) (hnofront q)
    | back => exact absurd (by simp [Plane.split_back hside]) (hnoback q)
    | across =>
      exact absurd (by simp [Plane.split_across heps hside]) (hnofront (p.piece eps .back q))
  · intro hon
    rw [← exists_levels_iff heps]
    cases l with
    | nil => exact ⟨0, by simp⟩
    | cons first rest =>
      have hsplitter : splitter eps first rest = p := splitter_eq_of_plane_eq h
      rw [← hsplitter] at hon
      exact ⟨1, Option.isSome_iff_exists.mpr ⟨_, insert_eq_of_splitter 0 hon⟩⟩

/-! ### Insertions into a tree -/

/-- What comes to some missing child of the tree stalls there. -/
def StallsBelow (eps : ℝ) : Tree ℝ → List (Polygon ℝ) → Prop
  | .absent, l => Stalls eps l
  | .node none _ _ _, l => Stalls eps l
  | .node (some p) _ front back, l =>
    front.StallsBelow eps ((p.splitAll eps l).flatMap Pieces.front) ∨
      back.StallsBelow eps ((p.splitAll eps l).flatMap Pieces.back)

/-- **An insertion ends unless it stalls below the tree.** -/
theorem exists_levels_insert_iff (heps : Scalar.epsilon ≤ eps) (ht : t.Grown) :
    (∃ levels, (t.insert eps levels l).isSome) ↔ ¬ t.StallsBelow eps l := by
  induction t generalizing l with
  | absent => exact exists_levels_iff heps l
  | node plane own front back ihFront ihBack =>
    obtain ⟨hplane, hfront, hback⟩ := ht
    obtain ⟨p, rfl⟩ := Option.isSome_iff_exists.mp hplane
    rw [StallsBelow, not_or, ← ihFront hfront, ← ihBack hback]
    cases l with
    | nil => exact iff_of_true ⟨0, by simp⟩ ⟨⟨0, by simp⟩, 0, by simp⟩
    | cons first rest => exact exists_levels_cons_iff

end Tree

/-! ### Meshes -/

namespace Mesh

variable {eps : ℝ} {levels : ℕ} {a b m : Mesh ℝ} {t : Tree ℝ}

/-- Some number of levels suffices for a tree of the mesh. -/
def HasTree (eps : ℝ) (m : Mesh ℝ) : Prop := ∃ levels, (m.tree? ⟨eps, levels⟩).isSome

/-- A mesh has a tree unless building it stalls. -/
theorem hasTree_iff (heps : Scalar.epsilon ≤ eps) (m : Mesh ℝ) :
    m.HasTree eps ↔ ¬ Tree.Stalls eps m.polygons := by
  rw [← Tree.exists_levels_iff heps, HasTree]
  by_cases hne : m.polygons = []
  · rw [hne]
    refine iff_of_true ⟨0, ?_⟩ ⟨0, by simp⟩
    rw [tree?, hne]
    rfl
  · simp only [tree?, Tree.ofPolygons_eq hne]

theorem tree?_mono {levels' : ℕ} (h : m.tree? ⟨eps, levels⟩ = some t) (hle : levels ≤ levels') :
    m.tree? ⟨eps, levels'⟩ = some t := Tree.insert_mono h hle

/-- **An operation on meshes that meet ends** if they have trees, and if joining what is
kept of these does not stall. -/
theorem exists_levels_combineWith_iff (heps : Scalar.epsilon ≤ eps) (hmeets : meets a b = true)
    (c : Combination) : (∃ levels, (combineWith ⟨eps, levels⟩ c a b).isSome) ↔
      ∃ levels ta tb, a.tree? ⟨eps, levels⟩ = some ta ∧ b.tree? ⟨eps, levels⟩ = some tb ∧
        ¬ (Tree.keptBy eps c ta tb).1.StallsBelow eps (Tree.keptBy eps c ta tb).2.polygons := by
  have hgrown : ∀ {levels ta tb}, a.tree? ⟨eps, levels⟩ = some ta →
      (Tree.keptBy eps c ta tb).1.Grown := by
    intro levels ta tb hta
    rw [tree?, Tree.ofPolygons_eq (ne_nil_of_meets hmeets).1] at hta
    exact (Tree.grown_keptBy c).mpr (Tree.grown_insert hta trivial)
  constructor
  · rintro ⟨levels, h⟩
    obtain ⟨m, hm⟩ := Option.isSome_iff_exists.mp h
    obtain ⟨ta, tb, hta, htb⟩ := exists_trees hmeets hm
    refine ⟨levels, ta, tb, hta, htb, ?_⟩
    rw [← Tree.exists_levels_insert_iff heps (hgrown hta)]
    exact ⟨levels, (isSome_combineWith hmeets hta htb c).mp h⟩
  · rintro ⟨levels, ta, tb, hta, htb, h⟩
    rw [← Tree.exists_levels_insert_iff heps (hgrown hta)] at h
    obtain ⟨n, hn⟩ := h
    obtain ⟨joined, hjoined⟩ := Option.isSome_iff_exists.mp hn
    refine ⟨max levels n, (isSome_combineWith hmeets (tree?_mono hta (le_max_left _ _))
      (tree?_mono htb (le_max_left _ _)) c).mpr (Option.isSome_iff_exists.mpr ⟨joined, ?_⟩)⟩
    exact Tree.insert_mono hjoined (le_max_right _ _)

end Mesh

end Solids
