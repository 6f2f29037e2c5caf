import Solids.Proofs.Stages
/-!
# Solids.Proofs.DocumentOrder

**The first of the largest requests for segments**, said without a list of nodes. A node is at a
place of a recipe if one comes to it by steps to a child or to an item of the children. Of two
places the one comes before the other if the other is inside it, or if the two are inside items of
one array, and the item of the one comes first.

Main definitions:

* `Path.Before` — the order in which a document is read;
* `Node.IsAt` — which node is at which place of a tree;
* `Node.IsFirstLargest` — the request that is to be found.

Main statements:

* `Node.pairwise_preorder` — the nodes from the top down are in the order of their places;
* `Recipe.first_largest_request` — which request is found, and which recipes keep a limit.
-/

namespace Solids

/-! ### The order of places -/

namespace Path

variable {p q r : Path} {i j : ℕ}

theorem Within.of_length_le (h : p.Within r) (h' : q.Within r) (hle : p.length ≤ q.length) :
    p.Within q := by
  induction r with
  | document =>
    obtain rfl : q = .document := h'
    exact h
  | key parent name ih =>
    rcases h with rfl | h
    · exact (h'.eq_of_length_eq (.refl _) (le_antisymm h'.length_le hle)).symm ▸ .refl _
    · rcases h' with rfl | h'
      · exact h.key name
      · exact ih h h'
  | index parent position ih =>
    rcases h with rfl | h
    · exact (h'.eq_of_length_eq (.refl _) (le_antisymm h'.length_le hle)).symm ▸ .refl _
    · rcases h' with rfl | h'
      · exact h.index position
      · exact ih h h'

/-- No place is inside two items of one array. -/
theorem Within.index_inj (h : (p.index i).Within q) (h' : (p.index j).Within q) : i = j :=
  (Path.index.inj (h.eq_of_length_eq h' rfl)).2

/-- The one place comes before the other when the document is read. -/
inductive Before (p q : Path) : Prop where
  /-- What is at the other place is a part of what is at the one. -/
  | outer : p.Within q → p ≠ q → Before p q
  /-- The places are inside different items of an array. -/
  | item {array : Path} {i j : ℕ} : i < j → (array.index i).Within p → (array.index j).Within q →
      Before p q

namespace Before

/-- What is under a key is read after the object. -/
theorem of_key {name : String} (h : (p.key name).Within q) : p.Before q := by
  refine .outer h.of_key ?_
  rintro rfl
  exact absurd h.length_le (by simp)

/-- Of two places at most one comes before the other. -/
theorem asymm (h : p.Before q) : ¬ q.Before p := by
  intro h'
  cases h with
  | outer hin hne =>
    cases h' with
    | outer hin' _ => exact hne (hin.antisymm hin')
    | item hlt hq hp => exact hlt.ne (hq.index_inj (hp.trans hin))
  | @item a i j hlt hp hq =>
    cases h' with
    | outer hin' _ => exact hlt.ne (hp.index_inj (hq.trans hin'))
    | @item b k l hlt' hq' hp' =>
      rcases lt_trichotomy a.length b.length with hshort | hsame | hlong
      · -- the array `b` is inside an item of `a`, which would be both the one and the other
        have hi : (a.index i).Within b := hp.of_length_le hp'.of_index hshort
        have hj : (a.index j).Within b := hq.of_length_le hq'.of_index hshort
        exact hlt.ne (hi.index_inj hj)
      · obtain ⟨rfl, rfl⟩ := Path.index.inj (hp.eq_of_length_eq hp' (congrArg (· + 1) hsame))
        exact (hlt.trans_eq (hq.index_inj hq')).not_gt hlt'
      · have hk : (b.index k).Within a := hq'.of_length_le hq.of_index hlong
        have hl : (b.index l).Within a := hp'.of_length_le hp.of_index hlong
        exact hlt'.ne (hk.index_inj hl)

end Before

end Path

/-! ### The places of nodes -/

namespace Node

variable {K : Type} {path place : Path} {n m : Node K} {e : Node K × Path}

/-- Which node is at which place, if the first one is at `path`. -/
inductive IsAt : Path → Node K → Path → Node K → Prop where
  /-- The node itself. -/
  | here (path : Path) (n : Node K) : IsAt path n path n
  /-- What is in one of the children of a combination. -/
  | item {path place : Path} {combination : Combination} {children : List (Node K)} {i : ℕ}
      {child m : Node K} : children[i]? = some child →
      IsAt ((path.key "children").index i) child place m →
      IsAt path (.combine combination children) place m
  /-- What is in the child of a motion. -/
  | child {path place : Path} {motion : Motion K} {child m : Node K} :
      IsAt (path.key "child") child place m → IsAt path (.move motion child) place m

theorem IsAt.within (h : IsAt path n place m) : path.Within place := by
  induction h with
  | here path n => exact .refl path
  | item _ _ ih => exact ih.of_index.of_key
  | child _ ih => exact ih.of_key

theorem placedFrom_eq_zipIdx (path : Path) (i : ℕ) (ns : List (Node K)) :
    placedFrom path i ns = (ns.zipIdx i).map fun e => (e.1, path.index e.2) := by
  induction ns generalizing i with
  | nil => rfl
  | cons n rest ih => rw [placedFrom, ih, List.zipIdx_cons, List.map_cons]

/-- The node at a place is among the nodes from the top down. -/
theorem IsAt.mem_preorder (h : IsAt path n place m) : (m, place) ∈ n.preorder path := by
  induction h with
  | here path n =>
    rw [preorder_eq]
    exact List.mem_cons_self
  | @item path _ _ children i child _ hchild _ ih =>
    have hplaced : (child, (path.key "children").index i) ∈
        placedFrom (path.key "children") 0 children := by
      rw [placedFrom_eq_zipIdx]
      exact List.mem_map.mpr ⟨(child, i), List.mk_mem_zipIdx_iff_getElem?.mpr hchild, rfl⟩
    rw [preorder, preorderOfItems_eq]
    exact .tail _ (List.mem_flatMap.mpr ⟨_, hplaced, ih⟩)
  | child _ ih => exact .tail _ ih

mutual

theorem isAt_of_mem_preorder (path : Path) :
    (n : Node K) → e ∈ n.preorder path → IsAt path n e.2 e.1
  | .shape s, h => by
    obtain rfl := List.mem_singleton.mp h
    exact .here path _
  | .combine combination children, h => by
    rcases List.mem_cons.mp h with rfl | h
    · exact .here path _
    · obtain ⟨j, child, hchild, hin⟩ :=
        isAt_of_mem_preorderOfItems (path.key "children") 0 children h
      rw [Nat.zero_add] at hin
      exact .item hchild hin
  | .move motion child, h => by
    rcases List.mem_cons.mp h with rfl | h
    · exact .here path _
    · exact .child (isAt_of_mem_preorder (path.key "child") child h)

theorem isAt_of_mem_preorderOfItems (path : Path) (i : ℕ) :
    (ns : List (Node K)) → e ∈ preorderOfItems path i ns →
      ∃ j child, ns[j]? = some child ∧ IsAt (path.index (i + j)) child e.2 e.1
  | [], h => absurd h List.not_mem_nil
  | n :: rest, h => by
    rcases List.mem_append.mp h with h | h
    · exact ⟨0, n, rfl, isAt_of_mem_preorder (path.index i) n h⟩
    · obtain ⟨j, child, hchild, hin⟩ := isAt_of_mem_preorderOfItems path (i + 1) rest h
      exact ⟨j + 1, child, hchild, by rwa [show i + (j + 1) = i + 1 + j by omega]⟩

end

/-- The nodes from the top down are those of the tree, with their places. -/
theorem mem_preorder_iff : (m, place) ∈ n.preorder path ↔ IsAt path n place m :=
  ⟨isAt_of_mem_preorder path n, IsAt.mem_preorder⟩

mutual

/-- The nodes from the top down are in the order of the document. -/
theorem pairwise_preorder (path : Path) :
    (n : Node K) → (n.preorder path).Pairwise fun e e' => e.2.Before e'.2
  | .shape s => List.pairwise_singleton _ _
  | .combine combination children => by
    refine List.pairwise_cons.mpr ⟨fun e he => ?_,
      pairwise_preorderOfItems (path.key "children") 0 children⟩
    obtain ⟨j, child, -, hin⟩ :=
      isAt_of_mem_preorderOfItems (path.key "children") 0 children he
    exact .of_key hin.within.of_index
  | .move motion child => by
    refine List.pairwise_cons.mpr ⟨fun e he => ?_, pairwise_preorder (path.key "child") child⟩
    exact .of_key (isAt_of_mem_preorder (path.key "child") child he).within

theorem pairwise_preorderOfItems (path : Path) (i : ℕ) :
    (ns : List (Node K)) → (preorderOfItems path i ns).Pairwise fun e e' => e.2.Before e'.2
  | [] => .nil
  | n :: rest => by
    refine List.pairwise_append.mpr ⟨pairwise_preorder (path.index i) n,
      pairwise_preorderOfItems path (i + 1) rest, fun e he e' he' => ?_⟩
    obtain ⟨j, child, -, hin⟩ := isAt_of_mem_preorderOfItems path (i + 1) rest he'
    exact .item (by omega) (isAt_of_mem_preorder (path.index i) n he).within hin.within

end

/-! ### The request that is found -/

/-- The node asks for so many segments. -/
inductive Requests : Node K → UInt32 → Prop where
  /-- A ball. -/
  | sphere (radius : K) (center : Option (Vec3 K)) (count : UInt32) :
      Requests (.shape (.sphere radius center (some count))) count
  /-- A cylinder. -/
  | cylinder (height radius : K) (center : Option (Vec3 K)) (count : UInt32) :
      Requests (.shape (.cylinder height radius center (some count))) count

theorem requests_iff {count : UInt32} : n.Requests count ↔ n.segments? = some count := by
  constructor
  · rintro (_ | _) <;> rfl
  · intro h
    match n, h with
    | .shape (.sphere radius center _), rfl => exact .sphere radius center count
    | .shape (.cylinder height radius center _), rfl => exact .cylinder height radius center count

/-- The request is the largest of a tree, and none of the same size is before it. -/
structure IsFirstLargest (path : Path) (n : Node K) (place : Path) (most : UInt32) : Prop where
  /-- It is a request. -/
  asked : ∃ m, IsAt path n place m ∧ m.Requests most
  /-- No request is larger. -/
  largest : ∀ q m count, IsAt path n q m → m.Requests count → count ≤ most
  /-- All other requests of this size are at later places. -/
  first : ∀ q m, IsAt path n q m → m.Requests most → q ≠ place → place.Before q

/-- There is no more than one such request. -/
theorem IsFirstLargest.unique {most most' : UInt32} {place' : Path}
    (h : n.IsFirstLargest path place most) (h' : n.IsFirstLargest path place' most') :
    place = place' ∧ most = most' := by
  obtain ⟨m, hm, hasked⟩ := h.asked
  obtain ⟨m', hm', hasked'⟩ := h'.asked
  obtain rfl : most = most' :=
    UInt32.le_antisymm (h'.largest place m most hm hasked) (h.largest place' m' most' hm' hasked')
  refine ⟨?_, rfl⟩
  by_contra hne
  exact (h.first place' m' hm' hasked' (Ne.symm hne)).asymm (h'.first place m hm hasked hne)

theorem isFirstLargest_of_isBest {most : UInt32}
    (h : IsBest (n.preorder path) (some (place, most))) : n.IsFirstLargest path place most := by
  have hle := h.le
  obtain ⟨earlier, later, m, horder, hm, hearlier, -⟩ := h
  have hmem : (m, place) ∈ n.preorder path := by simp [horder]
  refine ⟨⟨m, mem_preorder_iff.mp hmem, requests_iff.mpr hm⟩, ?_, ?_⟩
  · intro q m' count hq hcount
    exact hle _ hq.mem_preorder count (requests_iff.mp hcount)
  · intro q m' hq hmost hne
    have hin := hq.mem_preorder
    rw [horder, List.mem_append, List.mem_cons] at hin
    rcases hin with hin | hin | hin
    · exact absurd (hearlier _ hin most (requests_iff.mp hmost)) (UInt32.lt_irrefl most)
    · exact absurd (congrArg Prod.snd hin) hne
    · -- what comes later in the list comes later in the document
      have hsorted := pairwise_preorder path n
      rw [horder] at hsorted
      exact List.rel_of_pairwise_cons (List.pairwise_append.mp hsorted).2.1 hin

theorem maxSegments_eq_none_iff :
    n.maxSegments path = none ↔ ∀ place m count, IsAt path n place m → ¬ m.Requests count := by
  have hbest := isBest_maxSegments path n
  constructor
  · intro hnone place m count hm hcount
    rw [hnone] at hbest
    have hno : m.segments? = none := hbest _ hm.mem_preorder
    rw [requests_iff, hno] at hcount
    cases hcount
  · intro hno
    cases hmost : n.maxSegments path with
    | none => rfl
    | some best =>
      rw [hmost] at hbest
      obtain ⟨m, hm, hcount⟩ := (isFirstLargest_of_isBest hbest).asked
      exact absurd hcount (hno _ m _ hm)

theorem maxSegments_eq_some_iff {most : UInt32} :
    n.maxSegments path = some (place, most) ↔ n.IsFirstLargest path place most := by
  constructor
  · intro hmost
    exact isFirstLargest_of_isBest (hmost ▸ isBest_maxSegments path n)
  · intro h
    cases hmost : n.maxSegments path with
    | none =>
      obtain ⟨m, hm, hcount⟩ := h.asked
      exact absurd hcount (maxSegments_eq_none_iff.mp hmost place m most hm)
    | some best =>
      have hbest := isFirstLargest_of_isBest (hmost ▸ isBest_maxSegments path n)
      obtain ⟨hplace, hsize⟩ := h.unique hbest
      rw [hplace, hsize]

end Node

/-! ### The limit for requests -/

namespace Recipe

variable {K : Type} {options : CompileOptions} {r : Recipe K} {limit : UInt32}

theorem checkSegments_eq_ok_iff_forall (hlimit : options.maxSegments = some limit) :
    r.checkSegments options = .ok () ↔
      ∀ place m count, Node.IsAt .root r.root place m → m.Requests count → count ≤ limit := by
  rw [checkSegments_eq_ok_iff, hlimit]
  constructor
  · intro h place m count hm hcount
    exact h limit rfl _ hm.mem_preorder count (Node.requests_iff.mp hcount)
  · rintro h _ ⟨⟩ e he asked hasked
    exact h e.2 e.1 asked (Node.mem_preorder_iff.mp he) (Node.requests_iff.mpr hasked)

theorem checkSegments_eq_error_iff (hlimit : options.maxSegments = some limit)
    {e : ComplexityError} : r.checkSegments options = .error e ↔
      ∃ place most, r.root.IsFirstLargest .root place most ∧ limit < most ∧
        e = .tooManySegments place most limit := by
  simp only [← Node.maxSegments_eq_some_iff, checkSegments, hlimit]
  cases r.root.maxSegments .root with
  | none => simp
  | some best =>
    by_cases hlarge : limit < best.2
    · simp [hlarge, Prod.ext_iff, eq_comm]
    · simp [hlarge, Prod.ext_iff]

/-- **The first of the largest requests.** Wherever a tree is, no request for segments is found in
it if and only if there is none. Otherwise the one that is found is the largest, and of several
such the first in the order of the document. A limit for segments is kept if and only if no node
asks for more, and a recipe that breaks it is refused for the request that is found. -/
theorem first_largest_request (path : Path) (n : Node K) (options : CompileOptions)
    (r : Recipe K) (limit : UInt32) :
    (n.maxSegments path = none ↔
      ∀ place m count, Node.IsAt path n place m → ¬ m.Requests count) ∧
    (∀ place most, n.maxSegments path = some (place, most) ↔ n.IsFirstLargest path place most) ∧
    (r.checkSegments { options with maxSegments := some limit } = .ok () ↔
      ∀ place m count, Node.IsAt .root r.root place m → m.Requests count → count ≤ limit) ∧
    (∀ e, r.checkSegments { options with maxSegments := some limit } = .error e ↔
      ∃ place most, r.root.IsFirstLargest .root place most ∧ limit < most ∧
        e = .tooManySegments place most limit) ∧
    r.checkSegments { options with maxSegments := none } = .ok () :=
  ⟨Node.maxSegments_eq_none_iff, fun _ _ => Node.maxSegments_eq_some_iff,
    checkSegments_eq_ok_iff_forall rfl, fun _ => checkSegments_eq_error_iff rfl, rfl⟩

/-- Two balls in the same tree ask for 64 segments. The one that is found is the child of the third
child of the root, since it comes before the fourth one. -/
theorem first_largest_request_balls : ∃ (tree : Node ℝ) (place : Path),
    tree = .combine .union [.shape (.sphere 1 none (some 12)), .shape (.sphere 1 none none),
      .move (.translate ⟨1, 0, 0⟩) (.shape (.sphere 1 none (some 64))),
      .shape (.sphere 1 none (some 64))] ∧
    place = ((Path.root.key "children").index 2).key "child" ∧
    tree.maxSegments .root = some (place, 64) ∧ tree.IsFirstLargest .root place 64 ∧
    (Recipe.mk 1 .mm none tree).checkSegments { maxSegments := some 48 } =
      .error (.tooManySegments place 64 48) := by
  refine ⟨_, _, rfl, rfl, ?_⟩
  set tree : Node ℝ := .combine .union _
  have hfound : tree.maxSegments .root =
      some (((Path.root.key "children").index 2).key "child", 64) := by
    rw [Node.maxSegments, Node.largestRequestFrom_eq]
    rfl
  obtain ⟨-, hlargest, -, hrefused, -⟩ :=
    first_largest_request .root tree {} (Recipe.mk 1 .mm none tree) 48
  have hfirst := (hlargest _ _).mp hfound
  exact ⟨hfound, hfirst, (hrefused _).mpr ⟨_, _, hfirst, by decide, rfl⟩⟩

end Recipe

end Solids
