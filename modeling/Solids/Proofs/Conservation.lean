import Solids.Proofs.BuildLoop
import Solids.Proofs.Volume
/-!
# Solids.Proofs.Conservation

**Nothing is lost on the way.** While a tree is being built, its polygons are in two places: at the
nodes, and in the list of those that are still to be put in. A turn of the loop takes some from
that list and sorts them by one plane. What is on the plane stays at a node, and the rest is put
back into the list; both together are still what they were before.

Main definitions:

* `Tree.elsewhere` — the polygons of a tree that are not at a place;
* `Building.held` — the polygons in the tree, and those still to be put in;
* `Building.cuts` — the polygons that the next turn cuts, with the plane that it cuts them by;
* `Building.IsTurn` — what a turn does to all of them.

Main statements:

* `Building.cover_held_iterate`, `Building.sixfold_held_iterate` — after any number of turns the
  polygons cover what they did, and have the same volume if no corner was near a plane without
  being on it;
* `Building.conserves_of_ends` — what a loop that has ended has put into the tree.
-/

namespace Solids

namespace Tree

variable {K : Type} {t u : Tree K} {b c : Branch} {place place' : List Branch}

/-! ### Polygons at a place and elsewhere -/

/-- The step to the other child. -/
def Branch.other : Branch → Branch
  | .front => .back
  | .back => .front

theorem Branch.eq_or_eq_other (b c : Branch) : c = b ∨ c = b.other := by
  cases b <;> cases c <;> simp [other]

@[simp] theorem own_setChild (t : Tree K) (b : Branch) (u : Tree K) :
    (t.setChild b u).own = t.own := by
  cases t <;> cases b <;> rfl

@[simp] theorem child_other_setChild (t : Tree K) (b : Branch) (u : Tree K) :
    (t.setChild b u).child b.other = t.child b.other := by
  cases t <;> cases b <;> rfl

theorem polygons_perm_child (t : Tree K) (b : Branch) :
    t.polygons.Perm ((t.child b).polygons ++ (t.own ++ (t.child b.other).polygons)) := by
  cases t with
  | absent => cases b <;> exact .refl []
  | node plane own front back =>
    rw [polygons_node]
    cases b with
    | front => exact List.perm_append_comm
    | back =>
      show (own ++ back.polygons ++ front.polygons).Perm (back.polygons ++ (own ++ front.polygons))
      rw [List.append_assoc]
      exact List.perm_append_comm_assoc _ _ _

/-- The polygons that are not at the place. -/
def elsewhere : Tree K → List Branch → List (Polygon K)
  | _, [] => []
  | t, b :: place => (t.child b).elsewhere place ++ (t.own ++ (t.child b.other).polygons)

/-- With something else at the place, the polygons are those of that and those elsewhere. -/
theorem polygons_setAt_perm (h : t.HasPlace place) :
    (setAt u t place).polygons.Perm (u.polygons ++ t.elsewhere place) := by
  induction place generalizing t with
  | nil => rw [setAt, elsewhere, List.append_nil]
  | cons b place ih =>
    have hchild := polygons_perm_child (setAt u t (b :: place)) b
    rw [setAt, child_setChild h.1, own_setChild, child_other_setChild] at hchild
    rw [elsewhere, ← List.append_assoc]
    exact hchild.trans ((ih h.2).append_right _)

theorem polygons_perm_atPlace (h : t.HasPlace place) :
    t.polygons.Perm ((t.atPlace place).polygons ++ t.elsewhere place) := by
  conv_lhs => rw [← setAt_atPlace t place]
  exact polygons_setAt_perm h

/-- What is added at a place is added to the tree. -/
theorem polygons_setAt_perm_append {added : List (Polygon K)} (h : t.HasPlace place)
    (hu : u.polygons.Perm ((t.atPlace place).polygons ++ added)) :
    (setAt u t place).polygons.Perm (t.polygons ++ added) := by
  have hold := (polygons_perm_atPlace h).append_right added
  have hnew := (polygons_setAt_perm h).trans (hu.append_right (t.elsewhere place))
  rw [List.append_assoc] at hold hnew
  exact hnew.trans ((List.perm_append_comm.append_left _).trans hold.symm)

/-! ### Places that remain -/

/-- What is put at a place leaves every place there is, if it has those of what was there. -/
theorem hasPlace_setAt_of_forall
    (hu : ∀ sub, (t.atPlace place).HasPlace sub → u.HasPlace sub) (h : t.HasPlace place') :
    (setAt u t place).HasPlace place' := by
  induction place generalizing t place' with
  | nil => exact hu place' h
  | cons b place ih =>
    cases place' with
    | nil => trivial
    | cons c place' =>
      obtain ⟨hpresent, hchild⟩ := h
      refine ⟨(isAbsent_setChild t b _).trans hpresent, ?_⟩
      rw [setAt]
      obtain rfl | rfl := b.eq_or_eq_other c
      · rw [child_setChild hpresent]
        exact ih hu hchild
      · rw [child_other_setChild]
        exact hchild

theorem hasPlace_orEmpty (polygons : List (Polygon K)) (h : t.HasPlace place) :
    (t.orEmpty polygons).HasPlace place := by
  cases t with
  | absent =>
    cases place with
    | nil => trivial
    | cons b place => cases h.1
  | node plane own front back =>
    have hpresent : (node plane own front back).orEmpty polygons = node plane own front back := by
      simp [orEmpty, isAbsent]
    rwa [hpresent]

@[simp] theorem polygons_orEmpty (polygons : List (Polygon K)) (t : Tree K) :
    (t.orEmpty polygons).polygons = t.polygons := by
  cases t with
  | absent =>
    unfold orEmpty
    split <;> rfl
  | node plane own front back => simp [orEmpty, isAbsent]

section Nodes

variable (plane : Option (Plane ℝ)) (node : Tree ℝ) (added front back : List (Polygon ℝ))

/-- A node with more polygons, and with children made where they are missing. -/
theorem polygons_node_orEmpty_perm :
    (Tree.node plane (node.own ++ added) (node.frontChild.orEmpty front)
      (node.backChild.orEmpty back)).polygons.Perm (node.polygons ++ added) := by
  rw [polygons_node, polygons_orEmpty, polygons_orEmpty, polygons_eq node]
  simp only [List.append_assoc, List.perm_append_left_iff]
  rw [← List.append_assoc node.backChild.polygons]
  exact List.perm_append_comm

theorem hasPlace_node_orEmpty (h : node.HasPlace place) :
    (Tree.node plane (node.own ++ added) (node.frontChild.orEmpty front)
      (node.backChild.orEmpty back)).HasPlace place := by
  cases place with
  | nil => trivial
  | cons b place =>
    refine ⟨rfl, ?_⟩
    cases b with
    | front => exact hasPlace_orEmpty front h.2
    | back => exact hasPlace_orEmpty back h.2

end Nodes

end Tree

/-! ### Cutting, whatever the polygon's own plane is -/

theorem cover_perm {l r : List (Polygon ℝ)} (h : l.Perm r) : cover l = cover r := by
  ext x
  simp only [mem_cover, h.mem_iff]

namespace Polygon

variable {q : Polygon ℝ}

/-- A convex polygon is flat on some plane, if not on its own. -/
theorem IsConvex.exists_isFlat (h : q.IsConvex) :
    ∃ plane, (Polygon.mk q.vertices plane).IsFlat := by
  obtain ⟨n, hn, hlevel, -⟩ := h
  cases hcorners : q.corners with
  | nil =>
    refine ⟨⟨n, 0⟩, hn, fun y hy => ?_⟩
    change y ∈ q.corners at hy
    rw [hcorners] at hy
    cases hy
  | cons x rest =>
    refine ⟨⟨n, n.dot x⟩, hn, fun y hy => sub_eq_zero.mpr (hlevel y hy x ?_)⟩
    rw [hcorners]
    exact List.mem_cons_self

/-- A triangle one step to the right of the origin, with corners above and below. -/
noncomputable def sail : Polygon ℝ :=
  ⟨[⟨⟨1, 0, -1⟩, 0⟩, ⟨⟨1, 1, -1⟩, 0⟩, ⟨⟨1, 0, 1⟩, 0⟩], ⟨⟨1, 0, 0⟩, 1⟩⟩

theorem isConvex_sail : sail.IsConvex := by
  refine isConvex_three (n := ⟨1, 0, 0⟩) (fun h => ?_) ?_ ?_ ?_
  · simpa using congrArg Vec3.x h
  · norm_num [Vec3.dot]
  · norm_num [Vec3.dot]
  · norm_num [Vec3.turn, Vec3.dot, Vec3.cross]

theorem isFlat_sail : sail.IsFlat where
  normal_ne h := by simpa [sail] using congrArg Vec3.x h
  on_plane := by norm_num [sail, corners, Plane.signedDistance, Vec3.dot]

theorem decides_ground_sail : Plane.ground.Decides (1 / 2) sail := by
  norm_num [sail, Plane.Decides, corners, Plane.ground_signedDistance]

theorem sixfoldVolume_sail : sail.sixfoldVolume = 2 := by
  norm_num [sail, sixfoldVolume, triangles, Triangle.sixfoldVolume, Vec3.dot,
    Vec3.cross]

end Polygon

namespace Plane

variable {eps : ℝ} {p : Plane ℝ} {q : Polygon ℝ} {polygons : List (Polygon ℝ)}

/-- Sorting convex polygons by a plane leaves their volume. -/
theorem sixfold_splitAll_of_isConvex (heps : Scalar.epsilon ≤ eps)
    (hconvex : ∀ q ∈ polygons, q.IsConvex) (h : ∀ q ∈ polygons, p.Decides eps q) :
    sixfold (Pieces.onPlane (p.splitAll eps polygons))
      + sixfold ((p.splitAll eps polygons).flatMap Pieces.front)
      + sixfold ((p.splitAll eps polygons).flatMap Pieces.back) = sixfold polygons := by
  refine sixfold_splitAll_of_forall fun q hq => ?_
  obtain ⟨plane, hflat⟩ := (hconvex q hq).exists_isFlat
  exact sixfold_split_of_isFlat_mk heps hflat (h q hq)

end Plane

/-! ### Turns of the loop -/

namespace Building

open Solids.Tree

variable {K : Type}

/-- The polygons that are still to be put in. -/
def due (s : Building K) : List (Polygon K) := s.pending.flatMap Prod.snd

/-- The polygons in the tree, and those that are still to be put in. -/
def held (s : Building K) : List (Polygon K) := s.tree.polygons ++ s.due

theorem flatMap_push (place : List Branch) (polygons : List (Polygon K))
    (rest : List (List Branch × List (Polygon K))) :
    (push place polygons rest).flatMap Prod.snd = polygons ++ rest.flatMap Prod.snd := by
  unfold push
  split
  · next h => rw [List.isEmpty_iff.mp h, List.nil_append]
  · rfl

theorem forall_mem_push {place : List Branch} {polygons : List (Polygon K)}
    {rest : List (List Branch × List (Polygon K))} {P : List Branch → Prop} (hplace : P place)
    (hrest : ∀ e ∈ rest, P e.1) : ∀ e ∈ push place polygons rest, P e.1 := by
  unfold push
  split
  · exact hrest
  · exact List.forall_mem_cons.mpr ⟨hplace, hrest⟩

@[simp] theorem held_start (t : Tree K) (polygons : List (Polygon K)) :
    (start t polygons).held = t.polygons ++ polygons := by
  simp [held, due, start, flatMap_push]

variable {eps : ℝ} {s s' : Building ℝ} {p : Plane ℝ} {polygons others : List (Polygon ℝ)}

/-- The polygons that the next turn cuts, with the plane that it cuts them by. -/
noncomputable def cuts (eps : ℝ) (s : Building ℝ) : List Cut :=
  match s.pending with
  | (place, first :: rest) :: _ =>
    (first :: rest).map (Cut.mk ((s.tree.atPlace place).divider eps first rest))
  | _ => []

/-- What a turn does to the polygons: of those that are pending it takes some and sorts them by a
plane. -/
structure IsTurn (eps : ℝ) (p : Plane ℝ) (polygons others : List (Polygon ℝ))
    (s s' : Building ℝ) : Prop where
  /-- Some of those that are pending are taken. -/
  due_eq : s.due = polygons ++ others
  /-- They are cut. -/
  cuts_eq : s.cuts eps = polygons.map (Cut.mk p)
  /-- What is on the plane stays in the tree. -/
  polygons_perm : s'.tree.polygons.Perm
    (s.tree.polygons ++ Pieces.onPlane (p.splitAll eps polygons))
  /-- What is on either side is pending again. -/
  due_eq' : s'.due = (p.splitAll eps polygons).flatMap Pieces.back ++
    ((p.splitAll eps polygons).flatMap Pieces.front ++ others)

namespace IsTurn

theorem isConvex (h : IsTurn eps p polygons others s s') (heps : Scalar.epsilon ≤ eps)
    (hconvex : ∀ q ∈ s.due, q.IsConvex) : ∀ q ∈ s'.due, q.IsConvex := by
  rw [h.due_eq, List.forall_mem_append] at hconvex
  rw [h.due_eq', List.forall_mem_append, List.forall_mem_append]
  refine ⟨fun r hr => ?_, fun r hr => ?_, hconvex.2⟩
  · obtain ⟨q, hq, hrq⟩ := Plane.exists_pieceOf_back heps hr
    exact hrq.isConvex (hconvex.1 q hq)
  · obtain ⟨q, hq, hrq⟩ := Plane.exists_pieceOf_front heps hr
    exact hrq.isConvex (hconvex.1 q hq)

theorem cover_held (h : IsTurn eps p polygons others s s') (heps : Scalar.epsilon ≤ eps)
    (hconvex : ∀ q ∈ s.due, q.IsConvex) : cover s'.held = cover s.held := by
  rw [h.due_eq, List.forall_mem_append] at hconvex
  have hpieces := Plane.cover_onPlane_union_front_union_back (p := p) heps hconvex.1
  rw [held, held, h.due_eq', h.due_eq, cover_append, cover_perm h.polygons_perm]
  simp only [cover_append, ← hpieces]
  ext x
  simp only [Set.mem_union]
  tauto

theorem sixfold_held (h : IsTurn eps p polygons others s s') (heps : Scalar.epsilon ≤ eps)
    (hconvex : ∀ q ∈ s.due, q.IsConvex) (hcuts : ∀ c ∈ s.cuts eps, c.IsDecided eps) :
    sixfold s'.held = sixfold s.held := by
  rw [h.due_eq, List.forall_mem_append] at hconvex
  rw [h.cuts_eq, List.forall_mem_map] at hcuts
  have hpieces := Plane.sixfold_splitAll_of_isConvex heps hconvex.1 hcuts
  rw [held, held, h.due_eq', h.due_eq, sixfold_append, sixfold_perm h.polygons_perm]
  simp only [sixfold_append, ← hpieces]
  ring

end IsTurn

/-- The polygons that are pending are convex, and there is a place for them. -/
structure IsReady (s : Building ℝ) : Prop where
  /-- The places are places of the tree. -/
  hasPlace : ∀ e ∈ s.pending, s.tree.HasPlace e.1
  /-- The polygons are convex. -/
  isConvex : ∀ q ∈ s.due, q.IsConvex

/-- A turn sorts polygons by a plane, and what is then pending has its place. -/
theorem IsReady.exists_isTurn (eps : ℝ) (h : s.IsReady) :
    (∃ p polygons others, IsTurn eps p polygons others s (step eps s)) ∧
      ∀ e ∈ (step eps s).pending, (step eps s).tree.HasPlace e.1 := by
  obtain ⟨tree, pending⟩ := s
  obtain ⟨hplaces, -⟩ := h
  match pending, hplaces with
  | [], hplaces =>
    refine ⟨⟨Plane.ground, [], [], ⟨rfl, rfl, ?_, rfl⟩⟩, hplaces⟩
    show tree.polygons.Perm (tree.polygons ++ [])
    rw [List.append_nil]
  | (_, []) :: pending, hplaces =>
    refine ⟨⟨Plane.ground, [], pending.flatMap Prod.snd, ⟨rfl, rfl, ?_, rfl⟩⟩,
      (List.forall_mem_cons.mp hplaces).2⟩
    show tree.polygons.Perm (tree.polygons ++ [])
    rw [List.append_nil]
  | (place, first :: rest) :: pending, hplaces =>
    obtain ⟨hplace, hrest⟩ := List.forall_mem_cons.mp hplaces
    set node := tree.atPlace place with hnode
    set pieces := (node.divider eps first rest).splitAll eps (first :: rest)
    set front := pieces.flatMap Pieces.front
    set back := pieces.flatMap Pieces.back
    set made : Tree ℝ := .node (some (node.divider eps first rest))
      (node.own ++ Pieces.onPlane pieces) (node.frontChild.orEmpty front)
      (node.backChild.orEmpty back)
    have hstep : step eps ⟨tree, (place, first :: rest) :: pending⟩ =
        ⟨setAt made tree place,
          push (place ++ [.back]) back (push (place ++ [.front]) front pending)⟩ := rfl
    rw [hstep]
    refine ⟨⟨node.divider eps first rest, first :: rest, pending.flatMap Prod.snd,
      ⟨rfl, rfl, ?_, ?_⟩⟩, ?_⟩
    · exact polygons_setAt_perm_append hplace (polygons_node_orEmpty_perm _ node _ front back)
    · show (push _ back (push _ front pending)).flatMap Prod.snd = _
      rw [flatMap_push, flatMap_push]
    · refine forall_mem_push ?_ (forall_mem_push ?_ fun e he => ?_)
      · exact hasPlace_setAt hplace ⟨rfl, trivial⟩
      · exact hasPlace_setAt hplace ⟨rfl, trivial⟩
      · exact hasPlace_setAt_of_forall
          (fun sub hsub => hasPlace_node_orEmpty _ node _ front back hsub) (hrest e he)

/-! ### Runs of the loop -/

theorem isReady_start (t : Tree ℝ) (hconvex : ∀ q ∈ polygons, q.IsConvex) :
    (start t polygons).IsReady where
  hasPlace := by
    refine forall_mem_push (P := (t.orEmpty polygons).HasPlace) trivial ?_
    exact fun e he => absurd he List.not_mem_nil
  isConvex := by simpa [due, start, flatMap_push] using hconvex

theorem IsReady.step (h : s.IsReady) (heps : Scalar.epsilon ≤ eps) : (step eps s).IsReady := by
  obtain ⟨⟨p, polygons, others, hturn⟩, hplaces⟩ := h.exists_isTurn eps
  exact ⟨hplaces, hturn.isConvex heps h.isConvex⟩

theorem IsReady.iterate_step (h : s.IsReady) (heps : Scalar.epsilon ≤ eps) (n : ℕ) :
    ((Building.step eps)^[n] s).IsReady := by
  induction n with
  | zero => exact h
  | succ n ih =>
    rw [Function.iterate_succ_apply']
    exact ih.step heps

/-- However many turns the loop has made, the polygons cover what they did before. -/
theorem cover_held_iterate (h : s.IsReady) (heps : Scalar.epsilon ≤ eps) (n : ℕ) :
    cover ((step eps)^[n] s).held = cover s.held := by
  induction n with
  | zero => rfl
  | succ n ih =>
    have hready := h.iterate_step heps n
    obtain ⟨⟨p, polygons, others, hturn⟩, -⟩ := hready.exists_isTurn eps
    rw [Function.iterate_succ_apply', hturn.cover_held heps hready.isConvex, ih]

/-- However many turns the loop has made, the polygons have the volume that they had, unless a
corner was near a plane without being on it. -/
theorem sixfold_held_iterate (h : s.IsReady) (heps : Scalar.epsilon ≤ eps) (n : ℕ)
    (hcuts : ∀ k < n, ∀ c ∈ ((step eps)^[k] s).cuts eps, c.IsDecided eps) :
    sixfold ((step eps)^[n] s).held = sixfold s.held := by
  induction n with
  | zero => rfl
  | succ n ih =>
    have hready := h.iterate_step heps n
    obtain ⟨⟨p, polygons, others, hturn⟩, -⟩ := hready.exists_isTurn eps
    rw [Function.iterate_succ_apply',
      hturn.sixfold_held heps hready.isConvex (hcuts n n.lt_succ_self),
      ih fun k hk => hcuts k (hk.trans n.lt_succ_self)]

variable {n : ℕ} {t t' : Tree ℝ} {q : Polygon ℝ}

/-- A flat polygon that comes where there is nothing yet stays there. -/
theorem step_singleton (tree : Tree ℝ) (place : List Branch)
    (pending : List (List Branch × List (Polygon ℝ))) (heps : 0 ≤ eps) (hq : q.IsFlat)
    (hplace : tree.atPlace place = Tree.empty) :
    (⟨tree, (place, [q]) :: pending⟩ : Building ℝ).cuts eps = [⟨q.plane, q⟩] ∧
      step eps ⟨tree, (place, [q]) :: pending⟩ =
        ⟨setAt (node (some q.plane) [q] absent absent) tree place, pending⟩ := by
  have hon : q.plane.sideOfPolygon eps q = .on :=
    Plane.sideOfAll_eq_on.mpr fun v hv =>
      Plane.sideOf_eq_on.mpr (hq.fits heps v.pos (Polygon.pos_mem_corners hv))
  have hsplit : q.plane.splitAll eps [q] = [{ onFront := [q] }] := by
    rw [Plane.splitAll, List.map_singleton, Plane.split_on hon,
      if_pos (Vec3.dot_self_pos hq.normal_ne)]
  have hdivider : Tree.divider eps absent q [] = q.plane := rfl
  refine ⟨?_, ?_⟩
  · show [Cut.mk ((tree.atPlace place).divider eps q []) q] = _
    rw [hplace]
    rfl
  · have hnode : tree.atPlace place = absent.orEmpty [q] := hplace
    rw [step_cons hnode, hdivider, hsplit]
    rfl

/-- **Building loses nothing and invents nothing.** If the loop ends, for convex polygons and
whatever tree, then the recursion ends with the same tree. It covers what the tree before and the
polygons cover; and if no corner that came to a plane was near it without being on it, the volume
is larger by that of the polygons. Their own planes play no part in that. -/
theorem conserves_of_ends (heps : Scalar.epsilon ≤ eps) (hconvex : ∀ q ∈ polygons, q.IsConvex)
    (hends : (step eps)^[n] (start t polygons) = ⟨t', []⟩) :
    (∃ least, ∀ levels, least ≤ levels → t.insert eps levels polygons = some t') ∧
      cover t'.polygons = cover t.polygons ∪ cover polygons ∧
      ((∀ k < n, ∀ c ∈ ((step eps)^[k] (start t polygons)).cuts eps, c.IsDecided eps) →
        sixfold t'.polygons = sixfold t.polygons + sixfold polygons) := by
  have hready := isReady_start t hconvex
  have hheld : ((step eps)^[n] (start t polygons)).held = t'.polygons := by
    rw [hends]
    exact List.append_nil _
  refine ⟨?_, ?_, fun hcuts => ?_⟩
  · obtain ⟨least, u, hinsert, m, -, hm⟩ := exists_insert_of_iterate_step hends trivial rfl
    -- nothing is pending any more, so the loop stays where it is
    have hstay : step eps (⟨u, []⟩ : Building ℝ) = ⟨u, []⟩ := rfl
    have hiterate : (step eps)^[m] ⟨u, []⟩ = ⟨t', []⟩ := hm
    rw [Function.iterate_fixed hstay] at hiterate
    obtain rfl : u = t' := congrArg Building.tree hiterate
    exact ⟨least, fun levels hlevels => insert_mono hinsert hlevels⟩
  · rw [← hheld, cover_held_iterate hready heps n, held_start, cover_append]
  · rw [← hheld, sixfold_held_iterate hready heps n hcuts, held_start, sixfold_append]

open Solids.Polygon (sail)

/-- A plane that cuts the triangle is all there is of a tree. Once it has cut it, the two pieces
come to where there is nothing yet. -/
theorem iterate_step_sail (heps : Scalar.epsilon ≤ (1 / 2 : ℝ)) :
    ∃ t', (step (1 / 2))^[3] (start (node (some Plane.ground) [] absent absent) [sail]) =
        ⟨t', []⟩ ∧
      ∀ k < 3, ∀ c ∈ ((step (1 / 2))^[k] (start (node (some Plane.ground) [] absent absent)
        [sail])).cuts (1 / 2), c.IsDecided (1 / 2) := by
  have hhalf : (0 : ℝ) ≤ 1 / 2 := by norm_num
  set t : Tree ℝ := node (some Plane.ground) [] absent absent
  set above := Plane.ground.piece (1 / 2) .back sail
  set below := Plane.ground.piece (1 / 2) .front sail
  have habove : above.IsFlat := Polygon.isFlat_sail.piece (Plane.piece_pieceOf heps .back)
  have hbelow : below.IsFlat := Polygon.isFlat_sail.piece (Plane.piece_pieceOf heps .front)
  have hacross : Plane.ground.sideOfPolygon (1 / 2) sail = .across := by
    refine Plane.sideOfAll_eq_across.mpr ⟨⟨⟨⟨1, 0, 1⟩, 0⟩, by simp [sail], ?_⟩,
      ⟨⟨⟨1, 0, -1⟩, 0⟩, by simp [sail], ?_⟩⟩
    · rw [Plane.sideOf_eq_front hhalf, Plane.ground_signedDistance]
      norm_num
    · rw [Plane.sideOf_eq_back, Plane.ground_signedDistance]
      norm_num
  have hsplit : Plane.ground.splitAll (1 / 2) [sail] = [{ front := [above], back := [below] }] := by
    rw [Plane.splitAll, List.map_singleton, Plane.split_across heps hacross]
  have hturn₁ : step (1 / 2) (start t [sail]) =
      ⟨node (some Plane.ground) [] Tree.empty Tree.empty,
        [([.back], [below]), ([.front], [above])]⟩ := by
    have hnode : t.atPlace [] = t.orEmpty [sail] := rfl
    have hdivider : Tree.divider (1 / 2) t sail [] = Plane.ground := rfl
    show step (1 / 2) ⟨t, ([], [sail]) :: []⟩ = _
    rw [step_cons hnode, hdivider, hsplit]
    rfl
  obtain ⟨hcuts₂, hturn₂⟩ := step_singleton
    (node (some Plane.ground) [] Tree.empty Tree.empty) [.back] [([.front], [above])]
    hhalf hbelow rfl
  obtain ⟨hcuts₃, hturn₃⟩ := step_singleton
    (setAt (node (some below.plane) [below] absent absent)
      (node (some Plane.ground) [] Tree.empty Tree.empty) [.back]) [.front] [] hhalf habove rfl
  rw [← hturn₁] at hcuts₂ hturn₂
  rw [← hturn₂] at hcuts₃ hturn₃
  refine ⟨_, hturn₃, fun k hk => ?_⟩
  interval_cases k
  · exact List.forall_mem_singleton.mpr Polygon.decides_ground_sail
  · show ∀ c ∈ (step (1 / 2) (start t [sail])).cuts (1 / 2), c.IsDecided (1 / 2)
    rw [hcuts₂]
    exact List.forall_mem_singleton.mpr fun x hx => .inl (hbelow.on_plane x hx)
  · show ∀ c ∈ (step (1 / 2) (step (1 / 2) (start t [sail]))).cuts (1 / 2), c.IsDecided (1 / 2)
    rw [hcuts₃]
    exact List.forall_mem_singleton.mpr fun x hx => .inl (habove.on_plane x hx)

/-- The tree with the two pieces covers the triangle and has its volume. -/
theorem conserves_of_ends_sail : ∃ t t' : Tree ℝ,
    t = node (some Plane.ground) [] absent absent ∧ Scalar.epsilon ≤ (1 / 2 : ℝ) ∧
      (∀ q ∈ [sail], q.IsConvex) ∧ (step (1 / 2))^[3] (start t [sail]) = ⟨t', []⟩ ∧
      (∀ k < 3, ∀ c ∈ ((step (1 / 2))^[k] (start t [sail])).cuts (1 / 2), c.IsDecided (1 / 2)) ∧
      (∃ least, ∀ levels, least ≤ levels → t.insert (1 / 2) levels [sail] = some t') ∧
      cover t'.polygons = sail.region ∧ sixfold t'.polygons = 2 := by
  have heps : Scalar.epsilon ≤ (1 / 2 : ℝ) := by
    rw [Scalar.epsilon_real]
    norm_num
  have hconvex : ∀ q ∈ [sail], q.IsConvex := by simpa using Polygon.isConvex_sail
  obtain ⟨t', hends, hcuts⟩ := iterate_step_sail heps
  obtain ⟨hinsert, hcover, hsixfold⟩ := conserves_of_ends heps hconvex hends
  refine ⟨_, t', rfl, heps, hconvex, hends, hcuts, hinsert, ?_, ?_⟩
  · simpa using hcover
  · simpa [Polygon.sixfoldVolume_sail] using hsixfold hcuts

end Building

end Solids
