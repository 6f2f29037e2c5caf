import Solids.Proofs.Slab
/-!
# Solids.Proofs.BuildLoop

**Building trees by a loop.** `Tree.insert` is a recursion that may go down so many levels. Here is
the loop that does the same without a limit: it keeps the places of a tree where polygons are still
to be put in, works off the last one, and is done when none is left.

Main definitions:

* `Tree.atPlace` and `Tree.setAt` — what is at a place of a tree, and the tree with something else
  there;
* `Building.step` — one turn of the loop;
* `Tree.planeLevels` — the number of levels, nodes without a plane not counted.

Main statements:

* `Building.exists_iterate_step`, `Building.exists_insert_of_iterate_step` — the loop ends with the
  tree that the recursion gives, and not without the recursion giving it;
* `Tree.exists_insert_of_fits` — how many levels polygons need that fit their own planes. A node
  that takes a plane keeps the polygon that it takes it from, so of the others at most one piece
  each goes down on either side;
* `Building.ends_of_fits` — both together.
-/

namespace Solids

namespace Tree

variable {K : Type}

/-! ### Places -/

/-- A step down from a node. -/
inductive Branch where
  /-- To the front child. -/
  | front
  /-- To the back child. -/
  | back

/-- The child that a step leads to. -/
def child (t : Tree K) : Branch → Tree K
  | .front => t.frontChild
  | .back => t.backChild

/-- The tree with another child. -/
def setChild : Tree K → Branch → Tree K → Tree K
  | .absent, _, _ => .absent
  | .node plane own _ back, .front, new => .node plane own new back
  | .node plane own front _, .back, new => .node plane own front new

/-- What is at a place, by the steps that lead there. -/
def atPlace : Tree K → List Branch → Tree K
  | t, [] => t
  | t, b :: place => (t.child b).atPlace place

/-- The tree with something else at a place. -/
def setAt (new : Tree K) : Tree K → List Branch → Tree K
  | _, [] => new
  | t, b :: place => t.setChild b (setAt new (t.child b) place)

/-- Every step to the place starts at a node. -/
def HasPlace : Tree K → List Branch → Prop
  | _, [] => True
  | t, b :: place => t.isAbsent = false ∧ (t.child b).HasPlace place

variable {t u v : Tree K} {b : Branch} {place sub : List Branch}

@[simp] theorem isAbsent_setChild (t : Tree K) (b : Branch) (u : Tree K) :
    (t.setChild b u).isAbsent = t.isAbsent := by
  cases t <;> cases b <;> rfl

@[simp] theorem setChild_child (t : Tree K) (b : Branch) : t.setChild b (t.child b) = t := by
  cases t <;> cases b <;> rfl

@[simp] theorem setChild_setChild (t : Tree K) (b : Branch) (u v : Tree K) :
    (t.setChild b u).setChild b v = t.setChild b v := by
  cases t <;> cases b <;> rfl

theorem child_setChild (h : t.isAbsent = false) : (t.setChild b u).child b = u := by
  cases t with
  | absent => cases h
  | node plane own front back => cases b <;> rfl

theorem setAt_atPlace (t : Tree K) (place : List Branch) : setAt (t.atPlace place) t place = t := by
  induction place generalizing t with
  | nil => rfl
  | cons b place ih => rw [atPlace, setAt, ih, setChild_child]

theorem hasPlace_setAt (h : t.HasPlace place) (hsub : u.HasPlace sub) :
    (setAt u t place).HasPlace (place ++ sub) := by
  induction place generalizing t with
  | nil => exact hsub
  | cons b place ih =>
    refine ⟨(isAbsent_setChild t b _).trans h.1, ?_⟩
    rw [setAt, child_setChild h.1]
    exact ih h.2

theorem atPlace_setAt (h : t.HasPlace place) :
    (setAt u t place).atPlace (place ++ sub) = u.atPlace sub := by
  induction place generalizing t with
  | nil => rfl
  | cons b place ih =>
    rw [List.cons_append, atPlace, setAt, child_setChild h.1]
    exact ih h.2

theorem setAt_setAt (h : t.HasPlace place) :
    setAt v (setAt u t place) (place ++ sub) = setAt (setAt v u sub) t place := by
  induction place generalizing t with
  | nil => rfl
  | cons b place ih =>
    rw [List.cons_append, setAt, setAt, child_setChild h.1, setChild_setChild, ih h.2, setAt]

/-- The tree, or an empty one where it is missing and polygons are to be put in. -/
def orEmpty (polygons : List (Polygon K)) (t : Tree K) : Tree K :=
  if polygons.isEmpty || !t.isAbsent then t else empty

@[simp] theorem orEmpty_nil (t : Tree K) : t.orEmpty [] = t := rfl

theorem orEmpty_cons (first : Polygon K) (rest : List (Polygon K)) (t : Tree K) :
    (t.orEmpty (first :: rest)).plane? = t.plane? ∧ (t.orEmpty (first :: rest)).own = t.own ∧
      (t.orEmpty (first :: rest)).frontChild = t.frontChild ∧
      (t.orEmpty (first :: rest)).backChild = t.backChild := by
  cases t <;> exact ⟨rfl, rfl, rfl, rfl⟩

end Tree

/-! ### The loop -/

/-- A tree that is being built. -/
structure Building (K : Type) where
  /-- The tree so far. -/
  tree : Tree K
  /-- The polygons that are still to be put in, and where. The next one is in front. -/
  pending : List (List Tree.Branch × List (Polygon K))

namespace Building

open Solids.Tree

variable {K : Type}

/-- More work, unless there are no polygons in it. -/
def push (place : List Branch) (polygons : List (Polygon K))
    (rest : List (List Branch × List (Polygon K))) : List (List Branch × List (Polygon K)) :=
  if polygons.isEmpty then rest else (place, polygons) :: rest

/-- Polygons are to be put into a tree. -/
def start (t : Tree K) (polygons : List (Polygon K)) : Building K :=
  ⟨t.orEmpty polygons, push [] polygons []⟩

/-- One turn of the loop. A node without a plane takes one, keeps what is on it, and has children
made for what is not. The back child is next. -/
def step [Scalar K] (eps : K) (s : Building K) : Building K :=
  match s.pending with
  | [] => s
  | (_, []) :: pending => { s with pending }
  | (place, first :: rest) :: pending =>
    let node := s.tree.atPlace place
    let plane := node.plane?.getD (splitter eps first rest)
    let pieces := plane.splitAll eps (first :: rest)
    let front := pieces.flatMap Pieces.front
    let back := pieces.flatMap Pieces.back
    { tree := setAt (.node (some plane) (node.own ++ Pieces.onPlane pieces)
        (node.frontChild.orEmpty front) (node.backChild.orEmpty back)) s.tree place
      pending := push (place ++ [.back]) back (push (place ++ [.front]) front pending) }

variable {eps : ℝ} {levels : ℕ} {t node u tree : Tree ℝ} {polygons : List (Polygon ℝ)}
  {place : List Branch} {pending : List (List Branch × List (Polygon ℝ))}

/-- One turn at a node that looks like `node`. -/
theorem step_cons {first : Polygon ℝ} {rest : List (Polygon ℝ)}
    (h : tree.atPlace place = node.orEmpty (first :: rest)) :
    step eps ⟨tree, (place, first :: rest) :: pending⟩ =
      ⟨setAt (.node (some (node.divider eps first rest)) (node.own ++ Pieces.onPlane
          ((node.divider eps first rest).splitAll eps (first :: rest)))
        (node.frontChild.orEmpty (((node.divider eps first rest).splitAll eps
          (first :: rest)).flatMap Pieces.front))
        (node.backChild.orEmpty (((node.divider eps first rest).splitAll eps
          (first :: rest)).flatMap Pieces.back))) tree place,
      push (place ++ [.back]) (((node.divider eps first rest).splitAll eps
          (first :: rest)).flatMap Pieces.back)
        (push (place ++ [.front]) (((node.divider eps first rest).splitAll eps
          (first :: rest)).flatMap Pieces.front) pending)⟩ := by
  obtain ⟨hplane, hown, hfront, hback⟩ := orEmpty_cons first rest node
  simp only [step, h, hplane, hown, hfront, hback]
  rfl

/-- **The loop does what the recursion does.** Whatever else is pending, it works off what is
pending at a place, and leaves there what the recursion gives. -/
theorem exists_iterate_step (h : node.insert eps levels polygons = some u)
    (hplace : tree.HasPlace place) (hnode : tree.atPlace place = node.orEmpty polygons) :
    ∃ n, (step eps)^[n] ⟨tree, push place polygons pending⟩ = ⟨setAt u tree place, pending⟩ := by
  refine insert_induction (motive := fun _ node polygons u => ∀ tree place pending,
    HasPlace tree place → tree.atPlace place = node.orEmpty polygons →
    ∃ n, (step eps)^[n] ⟨tree, push place polygons pending⟩ = ⟨setAt u tree place, pending⟩)
    ?nil ?cons h tree place pending hplace hnode
  case nil =>
    intro _ node tree place pending _ hnode
    refine ⟨0, ?_⟩
    rw [orEmpty_nil] at hnode
    rw [← hnode, setAt_atPlace]
    rfl
  case cons =>
    intro _ node first rest p front back hp ihFront ihBack tree place pending hplace hnode
    subst hp
    set pieces := (node.divider eps first rest).splitAll eps (first :: rest) with hpieces
    set made : Tree ℝ := .node (some (node.divider eps first rest))
      (node.own ++ Pieces.onPlane pieces) (node.frontChild.orEmpty (pieces.flatMap Pieces.front))
      (node.backChild.orEmpty (pieces.flatMap Pieces.back)) with hmade
    -- first the node is made, then what is behind it, then what is in front
    have hbackPlace : (setAt made tree place).HasPlace (place ++ [.back]) :=
      hasPlace_setAt hplace ⟨rfl, trivial⟩
    obtain ⟨n, hn⟩ := ihBack (setAt made tree place) (place ++ [.back])
      (push (place ++ [.front]) (pieces.flatMap Pieces.front) pending) hbackPlace
      (atPlace_setAt hplace)
    rw [setAt_setAt hplace] at hn
    have hfrontPlace : (setAt (setAt back made [.back]) tree place).HasPlace
        (place ++ [.front]) := hasPlace_setAt hplace ⟨rfl, trivial⟩
    obtain ⟨m, hm⟩ := ihFront (setAt (setAt back made [.back]) tree place) (place ++ [.front])
      pending hfrontPlace (atPlace_setAt hplace)
    rw [setAt_setAt hplace] at hm
    refine ⟨m + n + 1, ?_⟩
    rw [Function.iterate_succ_apply, Function.iterate_add_apply]
    show (step eps)^[m] ((step eps)^[n] (step eps ⟨tree, (place, first :: rest) :: pending⟩)) = _
    rw [step_cons hnode, hn, hm]
    rfl

/-- **The recursion does what the loop does.** A loop that ends has come by the tree that the
recursion leaves at the place that was next, with the rest pending. -/
theorem exists_insert_of_iterate_step {n : ℕ} {t' : Tree ℝ}
    (h : (step eps)^[n] ⟨tree, push place polygons pending⟩ = ⟨t', []⟩)
    (hplace : tree.HasPlace place) (hnode : tree.atPlace place = node.orEmpty polygons) :
    ∃ levels u, node.insert eps levels polygons = some u ∧
      ∃ m ≤ n, (step eps)^[m] ⟨setAt u tree place, pending⟩ = ⟨t', []⟩ := by
  -- what comes from a turn is worked off in fewer turns, the back child first
  induction n using Nat.strong_induction_on generalizing tree node place polygons pending with
  | _ n ih =>
    cases polygons with
    | nil =>
      rw [orEmpty_nil] at hnode
      refine ⟨0, node, insert_nil, n, le_refl n, ?_⟩
      rw [← hnode, setAt_atPlace]
      exact h
    | cons first rest =>
      cases n with
      | zero => cases congrArg Building.pending h
      | succ n =>
        rw [Function.iterate_succ_apply] at h
        change (step eps)^[n] (step eps ⟨tree, (place, first :: rest) :: pending⟩) = _ at h
        rw [step_cons hnode] at h
        obtain ⟨levels, back, hback, m, hm, h⟩ := ih n n.lt_succ_self h
          (hasPlace_setAt hplace ⟨rfl, trivial⟩) (atPlace_setAt hplace)
        rw [setAt_setAt hplace] at h
        obtain ⟨levels', front, hfront, m', hm', h⟩ := ih m (Nat.lt_succ_of_le hm) h
          (hasPlace_setAt hplace ⟨rfl, trivial⟩) (atPlace_setAt hplace)
        rw [setAt_setAt hplace] at h
        refine ⟨max levels levels' + 1, _, insert_cons_eq_some.mpr ⟨front, back,
          insert_mono hfront (le_max_right _ _), insert_mono hback (le_max_left _ _), rfl⟩,
          m', hm'.trans (hm.trans n.le_succ), h⟩

end Building

/-! ### Levels -/

namespace Plane

variable {eps : ℝ} {p : Plane ℝ} {q : Polygon ℝ} {polygons : List (Polygon ℝ)}

theorem length_split_le (eps : ℝ) (p : Plane ℝ) (q : Polygon ℝ) :
    (p.split eps q).front.length ≤ 1 ∧ (p.split eps q).back.length ≤ 1 := by
  have hpiece : ∀ corners, (piece? q corners).length ≤ 1 := by
    intro corners
    unfold piece?
    split <;> simp
  unfold split
  split
  · split <;> exact ⟨Nat.zero_le _, Nat.zero_le _⟩
  · exact ⟨le_refl 1, Nat.zero_le _⟩
  · exact ⟨Nat.zero_le _, le_refl 1⟩
  · exact ⟨hpiece _, hpiece _⟩

theorem length_flatMap_front_le (eps : ℝ) (p : Plane ℝ) (polygons : List (Polygon ℝ)) :
    ((p.splitAll eps polygons).flatMap Pieces.front).length ≤
        polygons.countP (fun q => (p.split eps q).front ≠ []) ∧
      ((p.splitAll eps polygons).flatMap Pieces.back).length ≤
        polygons.countP (fun q => (p.split eps q).back ≠ []) := by
  have hlist : ∀ l : List (Polygon ℝ), l.length ≤ 1 → l.length ≤ if l ≠ [] then 1 else 0 := by
    intro l hl
    split <;> simp_all
  induction polygons with
  | nil => simp
  | cons q l ih =>
    obtain ⟨hfront, hback⟩ := length_split_le eps p q
    simp only [splitAll, List.map_cons, List.flatMap_cons, List.length_append, List.countP_cons,
      decide_eq_true_eq] at ih ⊢
    have := hlist _ hfront
    have := hlist _ hback
    omega

/-- Of each polygon at most one piece goes down on either side. -/
theorem length_flatMap_le (eps : ℝ) (p : Plane ℝ) (polygons : List (Polygon ℝ)) :
    ((p.splitAll eps polygons).flatMap Pieces.front).length ≤ polygons.length ∧
      ((p.splitAll eps polygons).flatMap Pieces.back).length ≤ polygons.length := by
  obtain ⟨hfront, hback⟩ := length_flatMap_front_le eps p polygons
  exact ⟨hfront.trans List.countP_le_length, hback.trans List.countP_le_length⟩

/-- Nothing goes down of a polygon whose plane is the one that divides. -/
theorem length_flatMap_lt (hq : q ∈ polygons) (hfits : q.Fits eps) :
    ((q.plane.splitAll eps polygons).flatMap Pieces.front).length < polygons.length ∧
      ((q.plane.splitAll eps polygons).flatMap Pieces.back).length < polygons.length := by
  obtain ⟨hfront, hback⟩ := length_flatMap_front_le eps q.plane polygons
  obtain ⟨hqfront, hqback⟩ := split_of_fits hfits
  refine ⟨hfront.trans_lt ?_, hback.trans_lt ?_⟩
  · refine List.countP_le_length.lt_of_ne fun h => ?_
    simpa [hqfront] using List.countP_eq_length.mp h q hq
  · refine List.countP_le_length.lt_of_ne fun h => ?_
    simpa [hqback] using List.countP_eq_length.mp h q hq

end Plane

namespace Tree

/-- The largest number of nodes with a plane on a way down. -/
def planeLevels {K : Type} : Tree K → ℕ
  | .absent => 0
  | .node plane _ front back => plane.toList.length + max front.planeLevels back.planeLevels

variable {eps : ℝ} {levels : ℕ} {t : Tree ℝ} {polygons : List (Polygon ℝ)}

/-- Below the node that polygons come to there is one level less, or one polygon less to be put
in. -/
theorem planeLevels_child_add_length_lt (hfits : ∀ q ∈ polygons, q.Fits eps)
    {first : Polygon ℝ} {rest : List (Polygon ℝ)} (h : polygons = first :: rest) :
    (t.frontChild.planeLevels + (((t.divider eps first rest).splitAll eps polygons).flatMap
        Pieces.front).length < t.planeLevels + polygons.length ∧
      t.backChild.planeLevels + (((t.divider eps first rest).splitAll eps polygons).flatMap
        Pieces.back).length < t.planeLevels + polygons.length) ∧
    t.frontChild.levels + (((t.divider eps first rest).splitAll eps polygons).flatMap
        Pieces.front).length < t.levels + polygons.length ∧
      t.backChild.levels + (((t.divider eps first rest).splitAll eps polygons).flatMap
        Pieces.back).length < t.levels + polygons.length := by
  have hle := Plane.length_flatMap_le eps (t.divider eps first rest) polygons
  -- a plane that is chosen is that of a polygon, which stays
  have hlt : t.plane? = none →
      (((t.divider eps first rest).splitAll eps polygons).flatMap Pieces.front).length
          < polygons.length ∧
        (((t.divider eps first rest).splitAll eps polygons).flatMap Pieces.back).length
          < polygons.length := by
    intro hplane
    obtain ⟨q, hq, hsplitter⟩ := exists_splitter_eq eps first rest
    rw [divider, hplane, Option.getD_none, hsplitter]
    exact Plane.length_flatMap_lt (h ▸ hq) (hfits q (h ▸ hq))
  generalize (((t.divider eps first rest).splitAll eps polygons).flatMap Pieces.front).length = n
    at hle hlt ⊢
  generalize (((t.divider eps first rest).splitAll eps polygons).flatMap Pieces.back).length = m
    at hle hlt ⊢
  cases t with
  | absent =>
    have := hlt rfl
    simp only [frontChild, backChild, planeLevels, Tree.levels]
    omega
  | node plane own front back =>
    cases plane with
    | none =>
      have := hlt rfl
      simp only [frontChild, backChild, planeLevels, Tree.levels, Option.toList_none,
        List.length_nil]
      omega
    | some p =>
      simp only [frontChild, backChild, planeLevels, Tree.levels, Option.toList_some,
        List.length_singleton]
      omega

/-- Polygons that fit their own planes are all put into a tree, whatever it is, and no way down
gets longer by more nodes with a plane than there are polygons. -/
theorem exists_insert_of_fits (heps : Scalar.epsilon ≤ eps) (hfits : ∀ q ∈ polygons, q.Fits eps)
    (hlevels : t.levels + polygons.length ≤ levels) :
    ∃ t', t.insert eps levels polygons = some t' ∧
      t'.planeLevels ≤ t.planeLevels + polygons.length := by
  induction levels generalizing t polygons with
  | zero =>
    obtain rfl : polygons = [] := List.eq_nil_of_length_eq_zero (by omega)
    exact ⟨t, insert_nil, le_refl _⟩
  | succ levels ih =>
    cases hpolygons : polygons with
    | nil => exact ⟨t, insert_nil, le_refl _⟩
    | cons first rest =>
      obtain ⟨⟨hfrontPlanes, hbackPlanes⟩, hfrontLevels, hbackLevels⟩ :=
        planeLevels_child_add_length_lt (t := t) hfits hpolygons
      have hfront : ∀ r ∈ ((t.divider eps first rest).splitAll eps polygons).flatMap
          Pieces.front, r.Fits eps := by
        intro r hr
        obtain ⟨q, hq, hrq⟩ := Plane.exists_pieceOf_front heps hr
        exact hrq.fits (hfits q hq)
      have hback : ∀ r ∈ ((t.divider eps first rest).splitAll eps polygons).flatMap
          Pieces.back, r.Fits eps := by
        intro r hr
        obtain ⟨q, hq, hrq⟩ := Plane.exists_pieceOf_back heps hr
        exact hrq.fits (hfits q hq)
      obtain ⟨front, hinsertFront, hfrontLe⟩ := ih (t := t.frontChild) hfront (by omega)
      obtain ⟨back, hinsertBack, hbackLe⟩ := ih (t := t.backChild) hback (by omega)
      subst hpolygons
      refine ⟨_, insert_cons_eq_some.mpr ⟨front, back, hinsertFront, hinsertBack, rfl⟩, ?_⟩
      simp only [planeLevels, Option.toList_some, List.length_singleton]
      omega

end Tree

/-! ### The end of the loop -/

namespace Building

open Solids.Tree

variable {eps : ℝ} {t : Tree ℝ} {polygons : List (Polygon ℝ)}

/-- **The loop ends**, whatever the tree, if the polygons fit their own planes, and each of them
adds at most one level of nodes with a plane. -/
theorem ends_of_fits (heps : Scalar.epsilon ≤ eps) (t : Tree ℝ)
    (hfits : ∀ q ∈ polygons, q.Fits eps) : ∃ n t',
      (step eps)^[n] (start t polygons) = ⟨t', []⟩ ∧
      t'.planeLevels ≤ t.planeLevels + polygons.length ∧
      ∀ levels, t.levels + polygons.length ≤ levels → t.insert eps levels polygons = some t' := by
  obtain ⟨t', hinsert, hplanes⟩ := exists_insert_of_fits (t := t) heps hfits (le_refl _)
  obtain ⟨n, hn⟩ : ∃ n, (step eps)^[n] (start t polygons) =
      ⟨setAt t' (t.orEmpty polygons) [], []⟩ := exists_iterate_step hinsert trivial rfl
  exact ⟨n, t', hn, hplanes, fun levels hlevels => insert_mono hinsert hlevels⟩

/-- The faces of a cube are put into the tree of another one that has a corner in the middle of
it. -/
theorem ends_of_fits_cubes : Scalar.epsilon ≤ Mesh.tolerance ∧
    (∀ q ∈ Mesh.cuboidFaces ⟨-1, -1, -1⟩ ⟨2, 2, 2⟩, q.Fits Mesh.tolerance) ∧
    ∃ t : Tree ℝ,
      ofPolygons Mesh.tolerance 6 (Mesh.cuboidFaces ⟨0, 0, 0⟩ ⟨2, 2, 2⟩) = some t ∧
      ∃ n t', (step Mesh.tolerance)^[n] (start t (Mesh.cuboidFaces ⟨-1, -1, -1⟩ ⟨2, 2, 2⟩))
          = ⟨t', []⟩ ∧
        t'.planeLevels ≤ t.planeLevels + 6 ∧
        ∀ levels, t.levels + 6 ≤ levels →
          t.insert Mesh.tolerance levels (Mesh.cuboidFaces ⟨-1, -1, -1⟩ ⟨2, 2, 2⟩) = some t' := by
  have heps : Scalar.epsilon ≤ Mesh.tolerance := Mesh.epsilon_le_tolerance
  have hfits : ∀ o, ∀ q ∈ Mesh.cuboidFaces o ⟨2, 2, 2⟩, q.Fits Mesh.tolerance :=
    Mesh.fits_of_mem_cube (Mesh.tolerance_lt_one.trans one_lt_two)
  obtain ⟨t, ht, -⟩ := exists_ofPolygons heps (by simp [Facing.cuboidFaces_eq])
    (hfits ⟨0, 0, 0⟩) (le_refl 6)
  exact ⟨heps, hfits _, t, ht, ends_of_fits heps t (hfits ⟨-1, -1, -1⟩)⟩

end Building

end Solids
