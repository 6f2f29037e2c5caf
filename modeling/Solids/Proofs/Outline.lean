import Solids.Proofs.Turn
/-!
# Solids.Proofs.Outline

**Closed outlines**: the edges of a cyclic list of corners, and outlines that turn
left all the way round.

Main definitions:

* `Outline.walk u mid z` — the edges of the way from `u` through `mid` to `z`. The
  edges of an outline are the walk from its first corner back to itself, and
  wherever two corners cut it, two walks;
* `Outline.InOrder n corners` — the corners are in one plane across `n`, and any
  three of them, taken in order, turn left as seen against `n`. A convex polygon
  has such an outline. Parts of it, the outline begun elsewhere, and the outline
  with points of its edges put in have the property too.
-/

namespace Solids.Outline

/-! ### Walks -/

/-- The edges of the way from `u` through `mid` to `z`. -/
def walk {α : Type} (u : α) (mid : List α) (z : α) : List (α × α) := (u :: mid).zip (mid ++ [z])

section Walks

variable {α β : Type}

@[simp] theorem walk_nil (u z : α) : walk u [] z = [(u, z)] := rfl

@[simp] theorem walk_cons (u v z : α) (mid : List α) :
    walk u (v :: mid) z = (u, v) :: walk v mid z := rfl

theorem walk_append (u v z : α) (mid mid' : List α) :
    walk u (mid ++ v :: mid') z = walk u mid v ++ walk v mid' z := by
  induction mid generalizing u with
  | nil => rfl
  | cons w mid ih => simp [ih]

theorem walk_map (f : α → β) (u z : α) (mid : List α) :
    walk (f u) (mid.map f) (f z) = (walk u mid z).map (Prod.map f f) := by
  induction mid generalizing u with
  | nil => rfl
  | cons v mid ih => simp [ih]

theorem edges_cons (u : α) (mid : List α) : Plane.edges (u :: mid) = walk u mid u := rfl

theorem edges_map (f : α → β) (l : List α) :
    Plane.edges (l.map f) = (Plane.edges l).map (Prod.map f f) := by
  cases l with
  | nil => rfl
  | cons u mid => exact walk_map f u u mid

/-- An outline begun elsewhere has the same edges. -/
theorem edges_append_comm (l r : List α) : (Plane.edges (l ++ r)).Perm (Plane.edges (r ++ l)) := by
  cases l with
  | nil => simp
  | cons u mid =>
    cases r with
    | nil => simp
    | cons v mid' =>
      rw [List.cons_append, List.cons_append, edges_cons, edges_cons, walk_append, walk_append]
      exact List.perm_append_comm

/-- The edges of an outline that two of its corners cut in two. -/
theorem edges_cut (u v : α) (mid mid' : List α) :
    Plane.edges (u :: mid ++ v :: mid') = walk u mid v ++ walk v mid' u :=
  walk_append u v u mid mid'

theorem fst_mem_of_mem_walk {u z : α} {mid : List α} {e : α × α} (h : e ∈ walk u mid z) :
    e.1 ∈ u :: mid := (List.of_mem_zip h).1

theorem snd_mem_of_mem_walk {u z : α} {mid : List α} {e : α × α} (h : e ∈ walk u mid z) :
    e.2 ∈ mid ++ [z] := (List.of_mem_zip h).2

theorem mem_of_mem_edges {l : List α} {e : α × α} (h : e ∈ Plane.edges l) : e.1 ∈ l ∧ e.2 ∈ l := by
  cases l with
  | nil => cases h
  | cons u mid =>
    refine ⟨fst_mem_of_mem_walk h, ?_⟩
    have h2 := snd_mem_of_mem_walk h
    simp only [List.mem_append, List.mem_singleton] at h2
    exact h2.elim (List.mem_cons_of_mem _) (fun h => h ▸ List.mem_cons_self)

theorem exists_mem_walk (u : α) (mid : List α) (z : α) : ∃ v, (u, v) ∈ walk u mid z := by
  cases mid with
  | nil => exact ⟨z, by simp⟩
  | cons v mid => exact ⟨v, by simp⟩

theorem exists_mem_edges {l : List α} {u : α} (h : u ∈ l) : ∃ v, (u, v) ∈ Plane.edges l := by
  obtain ⟨l, r, rfl⟩ := List.append_of_mem h
  obtain ⟨v, hv⟩ := exists_mem_walk u (r ++ l) u
  exact ⟨v, (edges_append_comm l (u :: r)).mem_iff.mpr hv⟩

/-- Two different elements of a list cut it, seen as a cycle, in two. -/
theorem exists_cut {α : Type} {l : List α} {a b : α} (ha : a ∈ l) (hb : b ∈ l) (hne : a ≠ b) :
    ∃ l₁ l₂ mid mid', l = l₁ ++ l₂ ∧ l₂ ++ l₁ = a :: mid ++ b :: mid' := by
  obtain ⟨l₁, l₂, rfl⟩ := List.append_of_mem ha
  have hb' : b ∈ l₂ ++ l₁ := by
    simp only [List.mem_append, List.mem_cons] at hb ⊢
    rcases hb with hb | hb | hb
    · exact .inr hb
    · exact absurd hb.symm hne
    · exact .inl hb
  obtain ⟨mid, mid', hmid⟩ := List.append_of_mem hb'
  exact ⟨l₁, a :: l₂, mid, mid', rfl, by rw [List.cons_append, hmid, List.cons_append]⟩

end Walks

/-! ### Corners in order -/

open Vec3

/-- The corners are in one plane across `n`, and any three of them, in order, turn
left as seen against `n`. -/
structure InOrder (n : Vec3 ℝ) (corners : List (Vec3 ℝ)) : Prop where
  /-- All corners are equally far along `n`. -/
  level : ∀ a ∈ corners, ∀ b ∈ corners, n.dot a = n.dot b
  /-- Three corners in order never turn right. -/
  turns : ∀ a b c, [a, b, c].Sublist corners → 0 ≤ turn n a b c

/-- Where three elements of a list are, with respect to one of its places. -/
theorem sublist_triple_cases {α : Type} {a b c x : α} {l r : List α}
    (h : [a, b, c].Sublist (l ++ x :: r)) :
    [a, b, c].Sublist (l ++ r) ∨ (a = x ∧ [b, c].Sublist r) ∨
      (b = x ∧ [a].Sublist l ∧ [c].Sublist r) ∨ (c = x ∧ [a, b].Sublist l) := by
  obtain ⟨s, t, hst, hs, ht⟩ := List.sublist_append_iff.mp h
  rw [List.sublist_cons_iff] at ht
  rcases ht with ht | ⟨t, rfl, ht⟩
  · exact .inl (hst ▸ hs.append ht)
  · match s, hst with
    | [], hst =>
      obtain ⟨rfl, rfl⟩ := List.cons.inj hst
      exact .inr (.inl ⟨rfl, ht⟩)
    | [_], hst =>
      simp only [List.cons_append, List.nil_append, List.cons.injEq] at hst
      obtain ⟨rfl, rfl, rfl⟩ := hst
      exact .inr (.inr (.inl ⟨rfl, hs, ht⟩))
    | [_, _], hst =>
      simp only [List.cons_append, List.nil_append, List.cons.injEq] at hst
      obtain ⟨rfl, rfl, rfl, -⟩ := hst
      exact .inr (.inr (.inr ⟨rfl, hs⟩))
    | _ :: _ :: _ :: s, hst =>
      have hlen := congrArg List.length hst
      simp only [List.length_cons, List.length_append, List.length_nil] at hlen
      omega

namespace InOrder

variable {n : Vec3 ℝ} {l r : List (Vec3 ℝ)}

theorem sublist (h : InOrder n l) (hr : r.Sublist l) : InOrder n r where
  level a ha b hb := h.level a (hr.subset ha) b (hr.subset hb)
  turns a b c habc := h.turns a b c (habc.trans hr)

/-- An outline begun elsewhere. -/
theorem append_comm (h : InOrder n (l ++ r)) : InOrder n (r ++ l) where
  level a ha b hb := by
    rw [List.mem_append, or_comm, ← List.mem_append] at ha hb
    exact h.level a ha b hb
  turns a b c habc := by
    obtain ⟨s, t, hst, hs, ht⟩ := List.sublist_append_iff.mp habc
    match s, hst with
    | [], hst => exact h.turns a b c (hst ▸ ht.trans (List.sublist_append_left l r))
    | [_], hst =>
      simp only [List.cons_append, List.nil_append, List.cons.injEq] at hst
      obtain ⟨rfl, rfl⟩ := hst
      exact turn_rotate n a b c ▸ h.turns b c a (ht.append hs)
    | [_, _], hst =>
      simp only [List.cons_append, List.nil_append, List.cons.injEq] at hst
      obtain ⟨rfl, rfl, rfl⟩ := hst
      exact turn_rotate n c a b ▸ h.turns c a b (ht.append hs)
    | [_, _, _], hst =>
      simp only [List.cons_append, List.nil_append, List.cons.injEq] at hst
      obtain ⟨rfl, rfl, rfl, rfl⟩ := hst
      exact h.turns a b c (hs.trans (List.sublist_append_right l r))
    | _ :: _ :: _ :: _ :: s, hst =>
      have hlen := congrArg List.length hst
      simp only [List.length_cons, List.length_append, List.length_nil] at hlen
      omega

/-- Back at the first corner. -/
theorem close {u : Vec3 ℝ} (h : InOrder n (u :: l)) : InOrder n (u :: l ++ [u]) where
  level a ha b hb := by
    have hmem : ∀ x ∈ u :: l ++ [u], x ∈ u :: l := by simp [or_comm]
    exact h.level a (hmem a ha) b (hmem b hb)
  turns a b c habc := by
    rcases sublist_triple_cases habc with habc | ⟨-, hbc⟩ | ⟨-, -, hc⟩ | ⟨rfl, hab⟩
    · exact h.turns a b c (by simpa using habc)
    · cases hbc
    · cases hc
    · rcases List.sublist_cons_iff.mp hab with hab | ⟨t, heq, ht⟩
      · exact turn_rotate n c a b ▸ h.turns c a b (hab.cons_cons c)
      · obtain ⟨rfl, rfl⟩ := List.cons.inj heq
        rw [turn_self_ends]

/-- A corner counted twice. -/
theorem duplicate {u : Vec3 ℝ} (h : InOrder n (l ++ u :: r)) : InOrder n (l ++ u :: u :: r) where
  level a ha b hb := by
    have hmem : ∀ x ∈ l ++ u :: u :: r, x ∈ l ++ u :: r := by simp
    exact h.level a (hmem a ha) b (hmem b hb)
  turns a b c habc := by
    rcases sublist_triple_cases habc with habc | ⟨rfl, hbc⟩ | ⟨rfl, ha, hc⟩ | ⟨rfl, hab⟩
    · exact h.turns a b c habc
    · rcases List.sublist_cons_iff.mp hbc with hbc | ⟨t, heq, -⟩
      · exact h.turns a b c ((hbc.cons_cons a).trans (List.sublist_append_right l _))
      · rw [(List.cons.inj heq).1, turn_self_left]
    · rcases List.sublist_cons_iff.mp hc with hc | ⟨t, heq, -⟩
      · exact h.turns a b c (ha.append (hc.cons_cons b))
      · rw [(List.cons.inj heq).1, turn_self_right]
    · exact h.turns a b c (hab.append ((List.nil_sublist r).cons_cons c))

/-- A point between two corners that could stand in the same place. -/
theorem replace {u v x : Vec3 ℝ} (hu : InOrder n (l ++ u :: r)) (hv : InOrder n (l ++ v :: r))
    (huv : n.dot u = n.dot v) (hx : x ∈ segment ℝ u v) : InOrder n (l ++ x :: r) where
  level := by
    have hxu : n.dot x = n.dot u := by
      obtain ⟨s, t, -, -, hst, rfl⟩ := hx
      rw [dot_add, dot_smul, dot_smul, ← huv, ← add_mul, hst, one_mul]
    have hmem : ∀ a ∈ l ++ x :: r, n.dot a = n.dot u := by
      intro a ha
      simp only [List.mem_append, List.mem_cons] at ha
      rcases ha with ha | rfl | ha
      · exact hu.level a (by simp [ha]) u (by simp)
      · exact hxu
      · exact hu.level a (by simp [ha]) u (by simp)
    intro a ha b hb
    rw [hmem a ha, hmem b hb]
  turns a b c habc := by
    rcases sublist_triple_cases habc with habc | ⟨rfl, hbc⟩ | ⟨rfl, ha, hc⟩ | ⟨rfl, hab⟩
    · exact hu.turns a b c (habc.trans ((List.Sublist.refl l).append (List.sublist_cons_self u r)))
    · have hsub : ∀ y, [y, b, c].Sublist (l ++ y :: r) := fun y =>
        (hbc.cons_cons y).trans (List.sublist_append_right l _)
      exact (convex_turn_first n b c).segment_subset (hu.turns u b c (hsub u))
        (hv.turns v b c (hsub v)) hx
    · have hsub : ∀ y, [a, y, c].Sublist (l ++ y :: r) := fun y => ha.append (hc.cons_cons y)
      exact (convex_turn_middle n a c).segment_subset (hu.turns a u c (hsub u))
        (hv.turns a v c (hsub v)) hx
    · have hsub : ∀ y, [a, b, y].Sublist (l ++ y :: r) := fun y =>
        hab.append ((List.nil_sublist r).cons_cons y)
      exact (convex_turn_last n a b).segment_subset (hu.turns a b u (hsub u))
        (hv.turns a b v (hsub v)) hx

/-- A point of an edge put in between its ends. -/
theorem insert {u v x : Vec3 ℝ} (h : InOrder n (l ++ u :: v :: r)) (hx : x ∈ segment ℝ u v) :
    InOrder n (l ++ u :: x :: v :: r) := by
  have hu : InOrder n ((l ++ [u]) ++ u :: v :: r) := by simpa using h.duplicate
  have hv : InOrder n ((l ++ [u]) ++ v :: v :: r) := by
    apply duplicate
    simpa using h
  simpa using hu.replace hv (h.level u (by simp) v (by simp)) hx

/-- The outline seen from the other side. -/
theorem reverse (h : InOrder n l) : InOrder (-n) l.reverse where
  level a ha b hb := by
    rw [List.mem_reverse] at ha hb
    rw [neg_dot, neg_dot, h.level a ha b hb]
  turns a b c habc := by
    have hcba : [c, b, a].Sublist l := by simpa using List.sublist_reverse_iff.mp habc
    rw [turn_neg, ← turn_swap, ← turn_rotate]
    exact h.turns c b a hcba

/-! ### Diagonals -/

/-- Four corners in order, two of which may coincide with others. -/
theorem turns_of_cut {u v a b : Vec3 ℝ} {mid mid' : List (Vec3 ℝ)}
    (h : InOrder n (u :: mid ++ v :: mid')) (ha : a ∈ u :: mid ++ [v])
    (hb : b ∈ v :: mid' ++ [u]) :
    0 ≤ turn n u a v ∧ 0 ≤ turn n u v b ∧ 0 ≤ turn n u a b ∧ 0 ≤ turn n a v b := by
  have hmid : ∀ a ∈ mid, 0 ≤ turn n u a v := fun a ha =>
    h.turns u a v (((List.singleton_sublist.mpr ha).append
      ((List.nil_sublist mid').cons_cons v)).cons_cons u)
  have hmid' : ∀ b ∈ mid', 0 ≤ turn n u v b := fun b hb =>
    h.turns u v b (((List.nil_sublist mid).append
      ((List.singleton_sublist.mpr hb).cons_cons v)).cons_cons u)
  have huab : ∀ a ∈ mid, ∀ b ∈ mid', 0 ≤ turn n u a b := fun a ha b hb =>
    h.turns u a b (((List.singleton_sublist.mpr ha).append
      ((List.singleton_sublist.mpr hb).cons v)).cons_cons u)
  have havb : ∀ a ∈ mid, ∀ b ∈ mid', 0 ≤ turn n a v b := fun a ha b hb =>
    h.turns a v b (((List.singleton_sublist.mpr ha).append
      ((List.singleton_sublist.mpr hb).cons_cons v)).cons u)
  simp only [List.cons_append, List.mem_cons, List.mem_append, List.mem_nil_iff, or_false] at ha hb
  have hrot : turn n a v u = turn n u a v := turn_rotate n u a v
  rcases ha with rfl | ha | rfl <;> rcases hb with rfl | hb | rfl <;> simp_all

/-- Two corners cut an outline in two. The segment between them meets every
segment from one part to the other, or else all is on one line and, where the
first corner is further along `m` than the second one, a point in between along
`m` is in the segment. -/
theorem exists_mem_diagonals {m u v g g' : Vec3 ℝ} {mid mid' : List (Vec3 ℝ)}
    (hn : n ≠ 0) (h : InOrder n (u :: mid ++ v :: mid'))
    (hg : g ∈ convexHull ℝ {x | x ∈ u :: mid ++ [v]})
    (hg' : g' ∈ convexHull ℝ {x | x ∈ v :: mid' ++ [u]})
    (hgu : m.dot g ≤ m.dot u) (hvg : m.dot v ≤ m.dot g) (hvu : m.dot v < m.dot u) :
    ∃ y ∈ segment ℝ u v, y ∈ segment ℝ g g' := by
  have hlevel : ∀ x ∈ u :: mid ++ v :: mid', x ∈ {x | n.dot x = n.dot u} := fun x hx =>
    h.level x hx u (by simp)
  have hgn : n.dot g = n.dot u :=
    convexHull_min (fun x hx => hlevel x (by simp_all; tauto)) (convex_level n _) hg
  have hgn' : n.dot g' = n.dot u :=
    convexHull_min (fun x hx => hlevel x (by simp_all; tauto)) (convex_level n _) hg'
  have hvn : n.dot v = n.dot u := hlevel v (by simp)
  have hu : u ∈ v :: mid' ++ [u] := by simp
  have hugv : 0 ≤ turn n u g v :=
    convexHull_min (fun a ha => (h.turns_of_cut ha hu).1) (convex_turn_middle n u v) hg
  rcases hugv.eq_or_lt with hzero | hpos
  · exact ⟨g, mem_segment_of_turn_eq_zero hn hgn hvn hzero.symm hgu hvg hvu,
      left_mem_segment ℝ g g'⟩
  · have huvg : 0 ≤ turn n u v g' :=
      convexHull_min (fun b hb => (h.turns_of_cut (a := u) (by simp) hb).2.1)
        (convex_turn_last n u v) hg'
    have hugg : 0 ≤ turn n u g g' :=
      convexHull_min (fun a ha => convexHull_min (fun b hb => (h.turns_of_cut ha hb).2.2.1)
        (convex_turn_last n u a) hg') (convex_turn_middle n u g') hg
    have hgvg : 0 ≤ turn n g v g' :=
      convexHull_min (fun a ha => convexHull_min (fun b hb => (h.turns_of_cut ha hb).2.2.2)
        (convex_turn_last n a v) hg') (convex_turn_first n v g') hg
    exact Vec3.exists_mem_diagonals hn hgn hvn hgn' hugg hgvg huvg hpos

end InOrder

end Solids.Outline
