import Solids.Proofs.Grammar
import Solids.Proofs.Preorder
/-!
# Solids.Proofs.Survey

**Counting nodes and levels in any order.** The loops of `Solids.Recipe.Measure` take the first of
the pending nodes each time. They need not: whichever pending node is taken, the loop comes to an
end after as many turns as the tree has nodes, and has found their number and that of the levels.

Main definitions:

* `Survey` — the nodes that are pending, and what was found so far;
* `Survey.Turn`, `Survey.Turns` — one turn of the loop, and several.

Main statement: `Node.survey_ends`. The number of levels is also the one that the reader of recipes
counts on its own: a node is read with so many levels allowed if and only if it does not have more.

What is pending has nodes below it that are not listed yet. The invariant is about all of them, so
that it does not matter where in the list a node is taken and where its children are put.
-/

namespace Solids

/-- A count of nodes and levels that is under way. -/
structure Survey (K : Type) where
  /-- The nodes that are still to be visited, with their levels. -/
  pending : List (Node K × ℕ)
  /-- The number of nodes that have been visited. -/
  count : ℕ := 0
  /-- The deepest level of those. -/
  deepest : ℕ := 0

namespace Survey

variable {K : Type} {s t u : Survey K} {k : ℕ}

/-- The survey of a tree before its first turn. -/
def start (n : Node K) : Survey K := { pending := [(n, 1)] }

/-- One turn: any of the pending nodes is visited, and its children take its place. -/
inductive Turn : Survey K → Survey K → Prop where
  /-- Before the node are some other pending ones, and after it, too. -/
  | visit (before after : List (Node K × ℕ)) (n : Node K) (level count deepest : ℕ) :
      Turn ⟨before ++ (n, level) :: after, count, deepest⟩
        ⟨before ++ n.children.map (·, level + 1) ++ after, count + 1, max deepest level⟩

/-- So many turns, one after the other. -/
inductive Turns : ℕ → Survey K → Survey K → Prop where
  /-- No turn. -/
  | none (s : Survey K) : Turns 0 s s
  /-- One turn, and then the others. -/
  | next {k : ℕ} {s t u : Survey K} : Turn s t → Turns k t u → Turns (k + 1) s u

/-- The number of the nodes that are pending and of all below them. -/
def size (s : Survey K) : ℕ := Node.sizeOfPending s.pending

/-- The deepest level of the nodes that have been visited, are pending, or are below those. -/
def bottom (s : Survey K) : ℕ := max s.deepest (Node.deepestOf s.pending)

theorem size_eq_zero_iff : s.size = 0 ↔ s.pending = [] := by
  unfold size Node.sizeOfPending
  cases s.pending with
  | nil => simp [Node.sizeOfAll]
  | cons e rest => simp [Node.sizeOfAll, Node.size_eq]

/-- A turn takes one node off the pending ones, and loses none. -/
theorem Turn.size_eq (h : s.Turn t) : s.size = t.size + 1 := by
  obtain ⟨before, after, n, level, count, deepest⟩ := h
  have hsize := Node.size_eq n
  simp only [size, Node.sizeOfPending_append]
  simp only [Node.sizeOfPending, List.map_cons, List.map_map, Node.sizeOfAll, Function.comp_def,
    List.map_id']
  omega

theorem Turn.count_eq (h : s.Turn t) : t.count = s.count + 1 := by
  cases h
  rfl

/-- The children of a node are one level below it, and are all that takes its place. -/
theorem Turn.bottom_eq (h : s.Turn t) : t.bottom = s.bottom := by
  obtain ⟨before, after, n, level, count, deepest⟩ := h
  have hbelow := Node.deepestOf_map level n.children
  have hlevels := Node.levels_eq n
  simp only [bottom, Node.deepestOf_append, Node.deepestOf]
  omega

/-- There is a turn as long as a node is pending. -/
theorem exists_turn (h : s.pending ≠ []) : ∃ t, s.Turn t := by
  obtain ⟨pending, count, deepest⟩ := s
  cases pending with
  | nil => exact absurd rfl h
  | cons e rest => exact ⟨_, .visit [] rest e.1 e.2 count deepest⟩

/-- What a run of turns does: it visits as many nodes as there are turns, and keeps the rest. -/
theorem Turns.spec (h : Turns k s t) :
    s.size = t.size + k ∧ t.count = s.count + k ∧ t.bottom = s.bottom := by
  induction h with
  | none s => exact ⟨rfl, rfl, rfl⟩
  | next hturn _ ih =>
    obtain ⟨hsize, hcount, hbottom⟩ := ih
    have hsize' := hturn.size_eq
    have hcount' := hturn.count_eq
    exact ⟨by omega, by omega, hbottom.trans hturn.bottom_eq⟩

theorem size_start (n : Node K) : (start n).size = n.count := by
  simp [start, size, Node.sizeOfPending, Node.sizeOfAll, Node.count_eq_size]

theorem bottom_start (n : Node K) : (start n).bottom = n.depth := by
  simp [start, bottom, Node.deepestOf, Node.depth_eq_levels]

/-- What the loop for the number of nodes makes of a survey. -/
theorem countFrom_pending (s : Survey K) :
    Node.countFrom s.count (s.pending.map Prod.fst) = s.count + s.size :=
  Node.countFrom_eq _ _

/-- What the loop for the number of levels makes of a survey. -/
theorem deepestFrom_pending (s : Survey K) : Node.deepestFrom s.deepest s.pending = s.bottom :=
  Node.deepestFrom_eq _ _

/-- What a survey of a tree has found, what is still to be found, and whether it goes on. -/
theorem Turns.of_start {n : Node K} (h : Turns k (start n) t) :
    t.count = k ∧ Node.countFrom t.count (t.pending.map Prod.fst) = n.count ∧
      Node.deepestFrom t.deepest t.pending = n.depth ∧
      (t.pending = [] → k = n.count ∧ t.deepest = n.depth) ∧
      (t.pending ≠ [] → k < n.count ∧ ∃ u, t.Turn u) := by
  obtain ⟨hsize, hcount, hbottom⟩ := h.spec
  have hk : t.count = k := hcount.trans (Nat.zero_add k)
  rw [size_start] at hsize
  rw [bottom_start] at hbottom
  refine ⟨hk, ?_, ?_, fun hdone => ?_, fun hleft => ?_⟩
  · rw [countFrom_pending, hk, hsize, Nat.add_comm]
  · rw [deepestFrom_pending, hbottom]
  · have hzero : t.size = 0 := size_eq_zero_iff.mpr hdone
    refine ⟨by omega, ?_⟩
    rw [← hbottom, bottom, hdone, Node.deepestOf, Nat.max_zero]
  · have hpos : t.size ≠ 0 := mt size_eq_zero_iff.mp hleft
    exact ⟨by omega, exists_turn hleft⟩

end Survey

/-! ### The measures by recursion on the tree -/

namespace Node

variable {K : Type}

theorem sizeOfAll_eq_sum (ns : List (Node K)) : sizeOfAll ns = (ns.map size).sum := by
  induction ns with
  | nil => rfl
  | cons n rest ih => rw [sizeOfAll, ih, List.map_cons, List.sum_cons]

theorem levelsOfAll_eq_foldr (ns : List (Node K)) :
    levelsOfAll ns = (ns.map levels).foldr max 0 := by
  induction ns with
  | nil => rfl
  | cons n rest ih => rw [levelsOfAll, ih, List.map_cons, List.foldr_cons]

/-- One more than the children have. -/
theorem count_eq (n : Node K) : n.count = (n.children.map count).sum + 1 := by
  have hcount : (count : Node K → ℕ) = size := funext count_eq_size
  rw [hcount, size_eq, sizeOfAll_eq_sum]

/-- One more than the deepest of the children has. -/
theorem depth_eq (n : Node K) : n.depth = (n.children.map depth).foldr max 0 + 1 := by
  have hdepth : (depth : Node K → ℕ) = levels := funext depth_eq_levels
  rw [hdepth, levels_eq, levelsOfAll_eq_foldr]

mutual

/-- There is a node on each level. -/
theorem levels_le_size : (n : Node K) → n.levels ≤ n.size
  | .shape _ => le_rfl
  | .combine _ children => Nat.succ_le_succ (levelsOfAll_le_sizeOfAll children)
  | .move _ child => Nat.succ_le_succ (levels_le_size child)

theorem levelsOfAll_le_sizeOfAll : (ns : List (Node K)) → levelsOfAll ns ≤ sizeOfAll ns
  | [] => le_rfl
  | n :: rest => by
    have hn := levels_le_size n
    have hrest := levelsOfAll_le_sizeOfAll rest
    rw [levelsOfAll, sizeOfAll]
    omega

end

/-- A node is read within so many levels if and only if it does not have more. -/
theorem ofJsonWithin_eq_ok_iff {levels : ℕ} {path : Path} {v : Json} {n : Node Double} :
    ofJsonWithin levels path v = .ok n ↔ v.IsNode n ∧ n.depth ≤ levels := by
  rw [depth_eq_levels]
  exact readsWithin_ofJsonWithin levels path v n

/-- **Surveys end.** A survey of a tree has counted as many nodes as it had turns, and goes on as
long as a node is pending. Whichever nodes it takes, it ends after as many turns as the tree has
nodes and has then found this number and that of the levels; and so would the loops that take the
first pending node, if they went on from any point of it. The numbers are one more than those of the
children together, or than that of the deepest child. There are no more levels than nodes. What is
read from JSON has no more levels than are allowed, and is read with any number allowed that is not
below its own. -/
theorem survey_ends (n : Node K) :
    (∀ k t, Survey.Turns k (.start n) t → t.count = k ∧
      countFrom t.count (t.pending.map Prod.fst) = n.count ∧
      deepestFrom t.deepest t.pending = n.depth ∧
      (t.pending = [] → k = n.count ∧ t.deepest = n.depth) ∧
      (t.pending ≠ [] → k < n.count ∧ ∃ u, t.Turn u)) ∧
    n.count = (n.children.map count).sum + 1 ∧
    n.depth = (n.children.map depth).foldr max 0 + 1 ∧ n.depth ≤ n.count ∧
    (∀ path v (m : Node Double), ofJson path v = .ok m → m.depth ≤ maxLevels) ∧
    ∀ levels path v (m : Node Double), ofJsonWithin levels path v = .ok m → m.depth ≤ levels ∧
      ∀ levels', ofJsonWithin levels' path v = .ok m ↔ m.depth ≤ levels' := by
  refine ⟨fun k t h => h.of_start, n.count_eq, n.depth_eq, ?_, ?_, ?_⟩
  · rw [depth_eq_levels, count_eq_size]
    exact n.levels_le_size
  · intro path v m hread
    exact (ofJsonWithin_eq_ok_iff.mp hread).2
  · intro levels path v m hread
    obtain ⟨hnode, hle⟩ := ofJsonWithin_eq_ok_iff.mp hread
    exact ⟨hle, fun levels' => ofJsonWithin_eq_ok_iff.trans (and_iff_right hnode)⟩

/-- A box beside a ball that is moved. The survey takes the last of the pending nodes each time, so
that it sees the ball before the box. -/
theorem survey_ends_union : ∃ (v : Json) (box ball moved tree : Node Double) (s : Survey Double),
    v = .object [("type", .string "union"), ("children", .array [
      .object [("type", .string "cuboid"), ("size", .array [.ofNat 1, .ofNat 1, .ofNat 1])],
      .object [("type", .string "translate"), ("offset", .array [.ofNat 1, .ofNat 2, .ofNat 3]),
        ("child", .object [("type", .string "sphere"), ("radius", .ofNat 1)])]])] ∧
    tree = .combine .union [box, moved] ∧ moved.children = [ball] ∧ ball.children = [] ∧
    box.children = [] ∧ ofJson .root v = .ok tree ∧ tree.depth ≤ maxLevels ∧
    Survey.Turns 4 (.start tree) s ∧ s.pending = [] ∧ tree.count = 4 ∧ tree.depth = 3 := by
  set one : Double := (Number.natural 1).toDouble
  set box : Node Double := .shape (.cuboid ⟨one, one, one⟩ none)
  set ball : Node Double := .shape (.sphere one none none)
  set moved : Node Double := .move
    (.translate ⟨one, (Number.natural 2).toDouble, (Number.natural 3).toDouble⟩) ball
  set tree : Node Double := .combine .union [box, moved]
  refine ⟨_, box, ball, moved, tree, ⟨[], 4, 3⟩, rfl, rfl, rfl, rfl, rfl, ?_⟩
  set v : Json := .object _
  have hnode : v.IsNode tree := by
    refine .combine (.union rfl) rfl (by simp) (.cons (.shape ?_) (.cons (.move ?_ rfl ?_) .nil))
    · exact .cuboid rfl ⟨_, rfl, .numbers _ _ _⟩ rfl
    · exact .translate rfl ⟨_, rfl, .numbers _ _ _⟩
    · exact .shape (.sphere rfl ⟨_, rfl, .number (by decide)⟩ rfl rfl)
  have hturns : Survey.Turns 4 (.start tree) ⟨[], 4, 3⟩ :=
    .next (.visit [] [] tree 1 0 0) (.next (.visit [(box, 2)] [] moved 2 1 1)
      (.next (.visit [(box, 2)] [] ball 3 2 2) (.next (.visit [] [] box 2 3 3) (.none _))))
  obtain ⟨hsurvey, -, -, -, hread, -⟩ := survey_ends tree
  obtain ⟨-, -, -, hdone, -⟩ := hsurvey 4 _ hturns
  obtain ⟨hcount, hdepth⟩ := hdone rfl
  have hok : ofJson .root v = .ok tree :=
    ofJsonWithin_eq_ok_iff.mpr ⟨hnode, by rw [← hdepth]; decide⟩
  exact ⟨hok, hread _ _ _ hok, hturns, rfl, hcount.symm, hdepth.symm⟩

end Node

end Solids
