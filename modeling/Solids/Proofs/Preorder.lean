import Solids.Proofs.Postorder
/-!
# Solids.Proofs.Preorder

**The nodes of a recipe from the top down**: a node, and then all that is below it, one child
after the other. This is the order of the document, and the one in which the loops of
`Solids.Recipe.Measure` visit the nodes.

Main statements:

* `Node.depth_eq_levels` — the loop of `Node.depth` finds the number of levels;
* `Node.largestRequestFrom_eq` — the loop of `Node.maxSegments` takes up the requests for
  segments in the order of the document;
* `Node.isBest_maxSegments` — and so finds the first of the largest ones.

Both loops are a fold over what is pending. Their invariants are about the pending nodes with
all that is below them, so that taking a node off and putting its children in front changes
nothing.
-/

namespace Solids.Node

variable {K : Type}

/-! ### The order -/

mutual

/-- The nodes of a tree at `path`, each before all that is below it, with their places. -/
def preorder (path : Path) : Node K → List (Node K × Path)
  | .shape s => [(.shape s, path)]
  | .combine combination children =>
    (.combine combination children, path) :: preorderOfItems (path.key "children") 0 children
  | .move motion child => (.move motion child, path) :: preorder (path.key "child") child

/-- The nodes of trees that are items of an array at `path`, the first one at position
`i`. -/
def preorderOfItems (path : Path) (i : Nat) : List (Node K) → List (Node K × Path)
  | [] => []
  | n :: rest => preorder (path.index i) n ++ preorderOfItems path (i + 1) rest

end

theorem preorderOfItems_eq (path : Path) (i : ℕ) (ns : List (Node K)) :
    preorderOfItems path i ns = (placedFrom path i ns).flatMap fun e => e.1.preorder e.2 := by
  induction ns generalizing i with
  | nil => simp [preorderOfItems, placedFrom]
  | cons n rest ih => simp [preorderOfItems, placedFrom, ih]

/-- A node, and then what is below it, one child after the other. -/
theorem preorder_eq (path : Path) (n : Node K) : n.preorder path =
    (n, path) :: (n.placedChildren path).flatMap fun e => e.1.preorder e.2 := by
  cases n <;> simp [preorder, placedChildren, preorderOfItems_eq]

/-! ### How many levels there are -/

/-- The deepest level of several trees, each with the level of its root. -/
def deepestOf : List (Node K × ℕ) → ℕ
  | [] => 0
  | (n, level) :: rest => max (level + n.levels - 1) (deepestOf rest)

theorem deepestOf_append (ps qs : List (Node K × ℕ)) :
    deepestOf (ps ++ qs) = max (deepestOf ps) (deepestOf qs) := by
  induction ps with
  | nil => simp [deepestOf]
  | cons p rest ih => simp [deepestOf, ih, max_assoc]

/-- Trees whose roots are at one level. -/
theorem deepestOf_map (level : ℕ) (ns : List (Node K)) :
    max level (deepestOf (ns.map (·, level + 1))) = level + levelsOfAll ns := by
  induction ns with
  | nil => simp [deepestOf, levelsOfAll]
  | cons n rest ih =>
    simp only [List.map_cons, deepestOf, levelsOfAll]
    omega

theorem deepestFrom_eq (deepest : ℕ) (pending : List (Node K × ℕ)) :
    deepestFrom deepest pending = max deepest (deepestOf pending) := by
  fun_induction deepestFrom deepest pending with
  | case1 deepest => simp [deepestOf]
  | case2 deepest n level rest ih =>
    -- the children are one level below the node they take the place of
    have hbelow := deepestOf_map level n.children
    have hlevels := levels_eq n
    rw [ih, deepestOf_append, deepestOf]
    omega

/-- The loop finds the number of levels of the tree. -/
theorem depth_eq_levels (n : Node K) : n.depth = n.levels := by
  have hlevels := levels_eq n
  rw [depth, deepestFrom_eq]
  simp only [deepestOf]
  omega

/-! ### The largest request for segments -/

/-- What becomes of the best request so far when nodes are visited one after the other. -/
def bestOf (best : Option (Path × UInt32)) (order : List (Node K × Path)) :
    Option (Path × UInt32) :=
  order.foldl (fun best e => largerRequest best e.2 e.1.segments?) best

/-- The loop visits the nodes in the order of the document. -/
theorem largestRequestFrom_eq (best : Option (Path × UInt32)) (pending : List (Node K × Path)) :
    largestRequestFrom best pending = bestOf best (pending.flatMap fun e => e.1.preorder e.2) := by
  fun_induction largestRequestFrom best pending with
  | case1 best => rfl
  | case2 best n path rest ih => simp [ih, preorder_eq path n, bestOf]

/-- The first of the largest requests of some nodes, or none if none of them asks for
segments. -/
def IsBest (order : List (Node K × Path)) : Option (Path × UInt32) → Prop
  | none => ∀ e ∈ order, e.1.segments? = none
  | some (path, most) => ∃ earlier later n, order = earlier ++ (n, path) :: later ∧
      n.segments? = some most ∧ (∀ e ∈ earlier, ∀ asked ∈ e.1.segments?, asked < most) ∧
      ∀ e ∈ later, ∀ asked ∈ e.1.segments?, asked ≤ most

variable {order : List (Node K × Path)} {best : Option (Path × UInt32)}

theorem IsBest.le {path : Path} {most : UInt32} (h : IsBest order (some (path, most))) :
    ∀ e ∈ order, ∀ asked ∈ e.1.segments?, asked ≤ most := by
  obtain ⟨earlier, later, n, rfl, hn, hearlier, hlater⟩ := h
  intro e he asked hasked
  simp only [List.mem_append, List.mem_cons] at he
  rcases he with he | rfl | he
  · exact UInt32.le_of_lt (hearlier e he asked hasked)
  · obtain rfl : most = asked := Option.some.inj (hn.symm.trans hasked)
    exact UInt32.le_refl _
  · exact hlater e he asked hasked

/-- One more node. -/
theorem IsBest.concat (h : IsBest order best) (e : Node K × Path) :
    IsBest (order ++ [e]) (largerRequest best e.2 e.1.segments?) := by
  obtain ⟨n, path⟩ := e
  cases hn : n.segments? with
  | none =>
    cases best with
    | none =>
      intro e he
      rcases List.mem_append.mp he with he | he
      · exact h e he
      · rw [List.mem_singleton.mp he]
        exact hn
    | some b =>
      obtain ⟨earlier, later, n', rfl, hn', hearlier, hlater⟩ := h
      refine ⟨earlier, later ++ [(n, path)], n', by simp, hn', hearlier, ?_⟩
      simpa [or_imp, forall_and, hn] using hlater
  | some asked =>
    cases best with
    | none =>
      refine ⟨order, [], n, rfl, hn, ?_, by simp⟩
      intro e he asked' hasked'
      rw [h e he] at hasked'
      cases hasked'
    | some b =>
      simp only [largerRequest]
      split
      · next hlt =>
        refine ⟨order, [], n, rfl, hn, ?_, by simp⟩
        intro e he asked' hasked'
        exact UInt32.lt_of_le_of_lt (h.le e he asked' hasked') hlt
      · next hle =>
        obtain ⟨earlier, later, n', rfl, hn', hearlier, hlater⟩ := h
        refine ⟨earlier, later ++ [(n, path)], n', by simp, hn', hearlier, ?_⟩
        simpa [or_imp, forall_and, hn, UInt32.not_lt] using And.intro hlater (UInt32.not_lt.mp hle)

/-- A whole visit, after some nodes have been visited already. -/
theorem IsBest.bestOf (h : IsBest order best) (order' : List (Node K × Path)) :
    IsBest (order ++ order') (bestOf best order') := by
  induction order' generalizing order best with
  | nil => simpa [Node.bestOf] using h
  | cons e rest ih => simpa [Node.bestOf] using ih (h.concat e)

/-- The loop finds the first of the largest requests. -/
theorem isBest_maxSegments (path : Path) (n : Node K) :
    IsBest (n.preorder path) (n.maxSegments path) := by
  rw [maxSegments, largestRequestFrom_eq]
  have hnone : IsBest ([] : List (Node K × Path)) none := by simp [IsBest]
  simpa using hnone.bestOf (n.preorder path)

end Solids.Node
