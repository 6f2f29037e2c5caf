import Solids.Polygon
/-!
# Solids.Tree

**Binary space partitions.** A node holds a plane, the polygons that lie on it,
and a tree for either side of it. A closed solid is such a tree: a point is
inside when the way down from the root, to the front or the back child by the
side the point is on, ends where a back child is missing. A missing front child
is outside.

Main definitions:

* `Tree.insert` — puts polygons into a tree, splitting them along its planes;
* `Tree.clip` — removes from polygons what is inside the solid. It is a loop over
  a list of pending work; `Tree.clipped` says the same by recursion on the tree,
  and `clip_eq_clipped` that they agree;
* `Tree.clipTo` — clips every polygon of a tree by another tree;
* `Tree.invert` — exchanges inside and outside;
* `Tree.polygons` — all polygons of a tree.

Design points:

* Splitting need not make progress: a polygon that is not on its own plane can be
  sent down for ever. `insert` therefore takes the number of levels it may go
  down and answers `none` when they do not suffice.
* `absent` is a child that is not there. A whole tree is never absent; the one
  that holds nothing is `empty`, a node without a plane.
-/

namespace Solids

/-- A tree of planes with the polygons that lie on them. -/
inductive Tree (K : Type) where
  /-- No tree: the missing child of a node. -/
  | absent
  /-- A plane, unless nothing was ever inserted, the polygons on it, and what is in
  front of and behind it. -/
  | node (plane : Option (Plane K)) (polygons : List (Polygon K)) (front back : Tree K)
  deriving Repr

namespace Tree

variable {K : Type}

/-- The tree that holds nothing. -/
def empty : Tree K := .node none [] .absent .absent

/-- The child is missing. -/
@[inline] def isAbsent : Tree K → Bool
  | .absent => true
  | .node .. => false

/-- The plane of the root node. -/
@[inline] def plane? : Tree K → Option (Plane K)
  | .absent => none
  | .node plane _ _ _ => plane

/-- The polygons at the root node. -/
@[inline] def own : Tree K → List (Polygon K)
  | .absent => []
  | .node _ own _ _ => own

/-- The child in front of the root node. -/
@[inline] def frontChild : Tree K → Tree K
  | .absent => .absent
  | .node _ _ front _ => front

/-- The child behind the root node. -/
@[inline] def backChild : Tree K → Tree K
  | .absent => .absent
  | .node _ _ _ back => back

/-- The number of nodes. -/
def size : Tree K → Nat
  | .absent => 0
  | .node _ _ front back => 1 + front.size + back.size

/-- The number of levels of nodes. -/
def levels : Tree K → Nat
  | .absent => 0
  | .node _ _ front back => 1 + max front.levels back.levels

/-- The polygons of the tree in front of `acc`: a node's own, then those of its
back child, then those of its front child. -/
def polygonsOnto : Tree K → List (Polygon K) → List (Polygon K)
  | .absent, acc => acc
  | .node _ own front back, acc => own ++ back.polygonsOnto (front.polygonsOnto acc)

/-- All polygons of the tree. -/
def polygons (t : Tree K) : List (Polygon K) := t.polygonsOnto []

theorem polygonsOnto_eq (t : Tree K) (acc : List (Polygon K)) :
    t.polygonsOnto acc = t.polygons ++ acc := by
  induction t generalizing acc with
  | absent => rfl
  | node plane own front back ihFront ihBack =>
    simp only [polygons, polygonsOnto] at *
    rw [ihFront acc, ihBack (_ ++ acc), ihBack (front.polygonsOnto [])]
    simp

@[simp] theorem polygons_absent : (absent : Tree K).polygons = [] := rfl

@[simp] theorem polygons_node (plane : Option (Plane K)) (own : List (Polygon K))
    (front back : Tree K) :
    (node plane own front back).polygons = own ++ back.polygons ++ front.polygons := by
  show own ++ back.polygonsOnto (front.polygonsOnto []) = _
  rw [polygonsOnto_eq back]
  simp [polygons]

variable [Scalar K]

/-! ### Choosing a plane -/

/-- How the polygons of a list lie with respect to a plane. -/
structure Tally where
  /-- How many would be cut. -/
  across : Nat := 0
  /-- How many are in front. -/
  front : Nat := 0
  /-- How many are behind. -/
  back : Nat := 0

/-- One more polygon on a side. -/
@[inline] def Tally.add (t : Tally) : Side → Tally
  | .on => t
  | .front => { t with front := t.front + 1 }
  | .back => { t with back := t.back + 1 }
  | .across => { t with across := t.across + 1 }

/-- The cost of a plane: a cut counts eight, and each polygon by which one side
outweighs the other counts one. -/
@[inline] def Tally.cost (t : Tally) : Nat :=
  8 * t.across + ((t.front - t.back) + (t.back - t.front))

/-- How `polygons` lie with respect to `p`. -/
@[specialize] def tally (eps : K) (p : Plane K) (polygons : List (Polygon K)) : Tally :=
  polygons.foldl (fun t q => t.add (p.sideOfPolygon eps q)) {}

/-- The first of the cheapest elements of a list that starts with `first`. -/
@[specialize] def cheapest {α : Type} (cost : α → Nat) (first : α) (rest : List α) : α :=
  (rest.foldl
    (fun best a =>
      let c := cost a
      if c < best.2 then (a, c) else best)
    (first, cost first)).1

/-- How many polygons are tried for a plane. -/
def candidateLimit : Nat := 20

/-- The plane to divide a list of polygons by: of the planes of its first
`candidateLimit` polygons the first of the cheapest. -/
@[specialize] def splitter (eps : K) (first : Polygon K) (rest : List (Polygon K)) : Plane K :=
  (cheapest (fun q => (tally eps q.plane (first :: rest)).cost) first
    (rest.take (candidateLimit - 1))).plane

/-- The plane to divide a list of polygons by, if there are any. -/
@[specialize] def splitter? (eps : K) : List (Polygon K) → Option (Plane K)
  | [] => none
  | first :: rest => some (splitter eps first rest)

/-! ### Building -/

/-- Inserts polygons. At each node the polygons on the plane stay, and the pieces
on either side go down to that side's child; a node that has no plane yet takes
the `splitter` of the polygons that arrive. The answer is `none` if polygons are
left when `levels` levels have been gone down. -/
@[specialize] def insert (eps : K) : Nat → Tree K → List (Polygon K) → Option (Tree K)
  | _, t, [] => some t
  | 0, _, _ :: _ => none
  | levels + 1, t, first :: rest => do
    let plane := t.plane?.getD (splitter eps first rest)
    let pieces := plane.splitAll eps (first :: rest)
    let front ← insert eps levels t.frontChild (pieces.flatMap Pieces.front)
    let back ← insert eps levels t.backChild (pieces.flatMap Pieces.back)
    return .node (some plane) (t.own ++ Pieces.onPlane pieces) front back

/-- The tree of some polygons. -/
@[inline] def ofPolygons (eps : K) (levels : Nat) (polygons : List (Polygon K)) :
    Option (Tree K) :=
  empty.insert eps levels polygons

/-! ### Clipping -/

/-- Adds work to a list of pending work, unless there are no polygons in it. -/
@[inline] def pending (t : Tree K) (polygons : List (Polygon K))
    (rest : List (Tree K × List (Polygon K))) : List (Tree K × List (Polygon K)) :=
  if polygons.isEmpty then rest else (t, polygons) :: rest

/-- The number of nodes and missing children still to be visited. -/
def workLeft : List (Tree K × List (Polygon K)) → Nat
  | [] => 0
  | (t, _) :: rest => 2 * t.size + 1 + workLeft rest

omit [Scalar K] in
theorem workLeft_pending_le (t : Tree K) (polygons : List (Polygon K))
    (rest : List (Tree K × List (Polygon K))) :
    workLeft (pending t polygons rest) ≤ 2 * t.size + 1 + workLeft rest := by
  unfold pending
  split <;> simp [workLeft]

/-- Clips pending work until none is left. What is kept is collected in reverse;
of a node's two children the back one is next. -/
@[specialize] def clipLoop (eps : K) : List (Tree K × List (Polygon K)) → List (Polygon K) →
    List (Polygon K)
  | [], kept => kept.reverse
  | (.absent, _) :: rest, kept => clipLoop eps rest kept
  | (.node none _ _ _, polygons) :: rest, kept => clipLoop eps rest (polygons.reverseAux kept)
  | (.node (some plane) _ front back, polygons) :: rest, kept =>
    let pieces := plane.splitAll eps polygons
    let outside := Pieces.inFront pieces
    let kept := if front.isAbsent then outside.reverseAux kept else kept
    clipLoop eps (pending back (Pieces.behind pieces) (pending front outside rest)) kept
termination_by work => workLeft work
decreasing_by
  · simp [workLeft]
  · simp [workLeft]
  · have hFront := workLeft_pending_le front (Pieces.inFront (plane.splitAll eps polygons)) rest
    have hBack := workLeft_pending_le back (Pieces.behind (plane.splitAll eps polygons))
      (pending front (Pieces.inFront (plane.splitAll eps polygons)) rest)
    simp only [workLeft, size] at *
    omega

/-- Removes from polygons every part that is inside the tree's solid. -/
@[inline] def clip (eps : K) (t : Tree K) (polygons : List (Polygon K)) : List (Polygon K) :=
  clipLoop eps [(t, polygons)] []

/-- What remains of polygons outside the tree's solid, by recursion on the tree.
The parts in front of the plane go to the front child, or are kept if there is
none; the parts behind it go to the back child, or are dropped if there is none.
A tree without a plane keeps all. -/
def clipped (eps : K) : Tree K → List (Polygon K) → List (Polygon K)
  | .absent, _ => []
  | .node none _ _ _, polygons => polygons
  | .node (some plane) _ front back, polygons =>
    let pieces := plane.splitAll eps polygons
    (if front.isAbsent then Pieces.inFront pieces else [])
      ++ back.clipped eps (Pieces.behind pieces) ++ front.clipped eps (Pieces.inFront pieces)

@[simp] theorem clipped_nil (eps : K) (t : Tree K) : t.clipped eps [] = [] := by
  induction t with
  | absent => rfl
  | node plane own front back ihFront ihBack =>
    cases plane with
    | none => rfl
    | some plane => simp [clipped, Pieces.inFront, Pieces.behind, ihFront, ihBack]

theorem flatMap_pending (eps : K) (t : Tree K) (polygons : List (Polygon K))
    (rest : List (Tree K × List (Polygon K))) :
    (pending t polygons rest).flatMap (fun e => e.1.clipped eps e.2)
      = t.clipped eps polygons ++ rest.flatMap fun e => e.1.clipped eps e.2 := by
  unfold pending
  split
  · next h => simp [List.isEmpty_iff.1 h]
  · simp

/-- The loop keeps what it has and then, entry by entry, what each pending tree
leaves of its polygons. -/
theorem clipLoop_eq (eps : K) (work : List (Tree K × List (Polygon K)))
    (kept : List (Polygon K)) :
    clipLoop eps work kept = kept.reverse ++ work.flatMap fun e => e.1.clipped eps e.2 := by
  fun_induction clipLoop eps work kept with
  | case1 kept => simp
  | case2 polygons rest kept ih => simp [ih, clipped]
  | case3 own front back polygons rest kept ih =>
    rw [ih, List.reverseAux_eq]
    simp [clipped]
  | case4 plane own front back polygons rest kept pieces outside kept' ih =>
    rw [ih, flatMap_pending, flatMap_pending, List.flatMap_cons, clipped]
    simp only [kept', outside, pieces, List.reverseAux_eq]
    split <;> simp

/-- Clipping by the loop and by recursion on the tree give the same list. -/
theorem clip_eq_clipped (eps : K) (t : Tree K) (polygons : List (Polygon K)) :
    t.clip eps polygons = t.clipped eps polygons := by
  simp [clip, clipLoop_eq]

/-- Clips every polygon of a tree by the solid of another one. -/
@[specialize] def clipTo (eps : K) : Tree K → Tree K → Tree K
  | .absent, _ => .absent
  | .node plane own front back, solid =>
    .node plane (solid.clip eps own) (front.clipTo eps solid) (back.clipTo eps solid)

/-! ### Inverting -/

/-- Exchanges inside and outside: every polygon and plane is turned over, and so
front and back children change places. -/
@[specialize] def invert : Tree K → Tree K
  | .absent => .absent
  | .node plane own front back =>
    .node (plane.map Plane.flip) (own.map Polygon.flip) back.invert front.invert

end Tree

end Solids
