import Solids.Recipe
import Solids.Recipe.Path
/-!
# Solids.Recipe.Measure

**The size of a recipe**, found before any geometry is made: how many nodes it
has, how many levels, and the largest number of segments any node asks for.

Each measure is a loop over a list of nodes that are still to be visited, which
begins with the root and takes the children of a node in front of the others. The
depth of the recipe thus never becomes depth of recursion. `size` and `levels` say
by recursion on the tree what the first two loops compute.
-/

namespace Solids.Node

variable {K : Type}

/-! ### By recursion on the tree -/

mutual

/-- The number of nodes of a tree. -/
def size : Node K → Nat
  | .shape _ => 1
  | .combine _ children => sizeOfAll children + 1
  | .move _ child => child.size + 1

/-- The number of nodes of several trees. -/
def sizeOfAll : List (Node K) → Nat
  | [] => 0
  | n :: rest => n.size + sizeOfAll rest

end

mutual

/-- The number of levels of a tree. -/
def levels : Node K → Nat
  | .shape _ => 1
  | .combine _ children => levelsOfAll children + 1
  | .move _ child => child.levels + 1

/-- The largest number of levels of several trees. -/
def levelsOfAll : List (Node K) → Nat
  | [] => 0
  | n :: rest => max n.levels (levelsOfAll rest)

end

theorem sizeOfAll_append (ms ns : List (Node K)) :
    sizeOfAll (ms ++ ns) = sizeOfAll ms + sizeOfAll ns := by
  induction ms with
  | nil => simp [sizeOfAll]
  | cons n rest ih => simp [sizeOfAll, ih, Nat.add_assoc]

theorem size_eq (n : Node K) : n.size = sizeOfAll n.children + 1 := by
  cases n <;> simp [size, children, sizeOfAll]

theorem levels_eq (n : Node K) : n.levels = levelsOfAll n.children + 1 := by
  cases n <;> simp [levels, children, levelsOfAll]

/-! ### Visiting one node after the other -/

/-- Counts the pending nodes and all below them. -/
def countFrom (count : Nat) : List (Node K) → Nat
  | [] => count
  | n :: rest => countFrom (count + 1) (n.children ++ rest)
termination_by pending => sizeOfAll pending
decreasing_by simp [sizeOfAll_append, sizeOfAll, size_eq n]

/-- The number of nodes, the root included. -/
def count (n : Node K) : Nat := countFrom 0 [n]

/-- The sizes of the trees that are pending at some level. -/
def sizeOfPending {α : Type} (pending : List (Node K × α)) : Nat :=
  sizeOfAll (pending.map Prod.fst)

theorem sizeOfPending_append {α : Type} (ps qs : List (Node K × α)) :
    sizeOfPending (ps ++ qs) = sizeOfPending ps + sizeOfPending qs := by
  simp [sizeOfPending, sizeOfAll_append]

/-- The deepest level of the pending nodes and of all below them. -/
def deepestFrom (deepest : Nat) : List (Node K × Nat) → Nat
  | [] => deepest
  | (n, level) :: rest =>
    deepestFrom (max deepest level) (n.children.map (·, level + 1) ++ rest)
termination_by pending => sizeOfPending pending
decreasing_by
  simp [sizeOfPending, sizeOfAll_append, sizeOfAll, size_eq n, Function.comp_def]

/-- The number of levels from the root down to the deepest node, both counted. -/
def depth (n : Node K) : Nat := deepestFrom 0 [(n, 1)]

/-! ### Segments -/

/-- Nodes as items of an array at `path`, the first one at position `i`. -/
def placedFrom (path : Path) (i : Nat) : List (Node K) → List (Node K × Path)
  | [] => []
  | n :: rest => (n, path.index i) :: placedFrom path (i + 1) rest

/-- The children of a node at `path`, each with its place. -/
def placedChildren (path : Path) : Node K → List (Node K × Path)
  | .shape _ => []
  | .combine _ children => placedFrom (path.key "children") 0 children
  | .move _ child => [(child, path.key "child")]

theorem placedFrom_fst (path : Path) (i : Nat) (ns : List (Node K)) :
    (placedFrom path i ns).map Prod.fst = ns := by
  induction ns generalizing i with
  | nil => rfl
  | cons n rest ih => simp [placedFrom, ih]

theorem placedChildren_fst (path : Path) (n : Node K) :
    (n.placedChildren path).map Prod.fst = n.children := by
  cases n <;> simp [placedChildren, children, placedFrom_fst]

/-- The larger of two requests for segments, the first one if they are equal. -/
def largerRequest (best : Option (Path × UInt32)) (path : Path) : Option UInt32 →
    Option (Path × UInt32)
  | none => best
  | some segments =>
    match best with
    | none => some (path, segments)
    | some (_, most) => if most < segments then some (path, segments) else best

/-- The largest request for segments of the pending nodes and all below them. -/
def largestRequestFrom (best : Option (Path × UInt32)) :
    List (Node K × Path) → Option (Path × UInt32)
  | [] => best
  | (n, path) :: rest =>
    largestRequestFrom (largerRequest best path n.segments?) (n.placedChildren path ++ rest)
termination_by pending => sizeOfPending pending
decreasing_by
  simp [sizeOfPending, sizeOfAll_append, sizeOfAll, size_eq n, placedChildren_fst]

/-- The largest number of segments that a node of the tree asks for, with the
place of the first node that does, if the tree itself is at `path`. -/
def maxSegments (path : Path) (n : Node K) : Option (Path × UInt32) :=
  largestRequestFrom none [(n, path)]

end Solids.Node
