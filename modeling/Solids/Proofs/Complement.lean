import Solids.Proofs.BuildLoop
import Solids.Proofs.SignedZero
/-!
# Solids.Proofs.Complement

**Inverting a tree is an exact complement.** Twice inverted a tree is what it was, and a point that
is on no plane is inside the one or inside the other.

`Tree.invert` is a recursion. Here is also the walk that does the same in place: it turns the nodes
over one after the other and exchanges the very children that it goes on to.

Main definitions:

* `Tree.turnRoot` — a single node turned over;
* `Inverting.step` — one turn of the walk.

Main statements:

* `Inverting.iterate_step_size` — the walk turns every node over once, and ends with the inverse;
* `Tree.complements_invert` — the inverse is a complement.
-/

namespace Solids

namespace Tree

variable {K : Type} [Scalar K]

/-- The root node turned over and its children exchanged. The nodes below stay as they are. -/
def turnRoot : Tree K → Tree K
  | .absent => .absent
  | .node plane own front back => .node (plane.map Plane.flip) (own.map Polygon.flip) back front

end Tree

/-! ### The walk -/

/-- A tree that is being inverted. -/
structure Inverting (K : Type) where
  /-- The tree so far. -/
  tree : Tree K
  /-- The places whose nodes are still to be turned over. The next one is in front. -/
  pending : List (List Tree.Branch)

namespace Inverting

open Solids.Tree

variable {K : Type} [Scalar K]

/-- One more place, unless no node is there. -/
def push (t : Tree K) (place : List Branch) (rest : List (List Branch)) : List (List Branch) :=
  if t.isAbsent then rest else place :: rest

/-- One turn of the walk. The node is turned over first, so that its children have changed places
when they are looked for. The back child is next. -/
def step (s : Inverting K) : Inverting K :=
  match s.pending with
  | [] => s
  | place :: pending =>
    let node := (s.tree.atPlace place).turnRoot
    { tree := setAt node s.tree place
      pending := push node.backChild (place ++ [.back])
        (push node.frontChild (place ++ [.front]) pending) }

/-- **The walk does what the recursion does.** Whatever else is pending, it takes as many turns
below a place as there are nodes, and leaves the inverse of what was there. -/
theorem iterate_step (t tree : Tree K) (place : List Branch) (pending : List (List Branch))
    (hplace : tree.HasPlace place) (ht : tree.atPlace place = t) :
    step^[t.size] ⟨tree, push t place pending⟩ = ⟨setAt t.invert tree place, pending⟩ := by
  induction t generalizing tree place pending with
  | absent =>
    show (⟨tree, pending⟩ : Inverting K) = ⟨setAt .absent tree place, pending⟩
    rw [← ht, setAt_atPlace]
  | node plane own front back ihFront ihBack =>
    -- the child that was in front is behind now, and is the next one
    set turned : Tree K := .node (plane.map Plane.flip) (own.map Polygon.flip) back front
      with hturned
    have hstep : step ⟨tree, push (.node plane own front back) place pending⟩ =
        ⟨setAt turned tree place,
          push front (place ++ [.back]) (push back (place ++ [.front]) pending)⟩ := by
      show step ⟨tree, place :: pending⟩ = _
      simp only [step, ht]
      rfl
    have hfirst := ihFront (setAt turned tree place) (place ++ [.back])
      (push back (place ++ [.front]) pending)
      (hasPlace_setAt hplace ⟨rfl, trivial⟩) (atPlace_setAt hplace)
    rw [setAt_setAt hplace] at hfirst
    have hsecond := ihBack (setAt (setAt front.invert turned [.back]) tree place)
      (place ++ [.front]) pending
      (hasPlace_setAt hplace ⟨rfl, trivial⟩) (atPlace_setAt hplace)
    rw [setAt_setAt hplace] at hsecond
    have hsize : (node plane own front back).size = back.size + (front.size + 1) := by
      rw [size]
      omega
    rw [hsize, Function.iterate_add_apply, Function.iterate_succ_apply, hstep, hfirst, hsecond]
    rfl

/-- A walk from the root turns every node over once, and ends with the inverse. -/
theorem iterate_step_size {t : Tree K} (h : t.isAbsent = false) :
    step^[t.size] ⟨t, [[]]⟩ = ⟨t.invert, []⟩ := by
  have hwalk := iterate_step t t [] [] trivial rfl
  rwa [push, h] at hwalk

end Inverting

/-! ### Inside and outside -/

namespace Tree

/-- **Inverting is an exact complement.** Inverted twice a tree is what it was, with all its planes
and polygons, on any numbers that negating twice gives back. The walk over the nodes ends with the
inverse. Over the reals a point that is on no plane of a tree whose nodes all have one is inside the
inverse exactly if it is not inside the tree. -/
theorem complements_invert {K : Type} [Scalar K] (hneg : ∀ a : K, - -a = a) :
    (∀ t : Tree K, t.invert.invert = t) ∧
    (∀ t : Tree K, t.isAbsent = false → Inverting.step^[t.size] ⟨t, [[]]⟩ = ⟨t.invert, []⟩) ∧
    ∀ (t : Tree ℝ) (x : Vec3 ℝ), t.isAbsent = false → t.Grown →
      (∀ p ∈ t.planes, p.signedDistance x ≠ 0) → (t.invert.Inside x ↔ ¬ t.Inside x) := by
  refine ⟨invert_invert_of_neg_neg hneg, fun t => Inverting.iterate_step_size, ?_⟩
  intro t x hpresent hgrown hoff
  exact inside_invert le_rfl hgrown hpresent fun p hp => abs_pos.mpr (hoff p hp)

/-- Doubles are such numbers. A point below the ground and in front of a wall is outside of the
quarter of space below the ground and behind the wall, and inside of its complement. -/
theorem complements_invert_quarter : (∀ a : Double, - -a = a) ∧
    (∀ t : Tree Double, t.invert.invert = t) ∧
    (∀ t : Tree Double, t.isAbsent = false →
      Inverting.step^[t.size] ⟨t, [[]]⟩ = ⟨t.invert, []⟩) ∧
    ∃ t : Tree ℝ, t = node (some ⟨⟨0, 0, 1⟩, 0⟩) [] absent
        (node (some ⟨⟨1, 0, 0⟩, 0⟩) [] absent absent) ∧
      t.isAbsent = false ∧ t.Grown ∧ (∀ p ∈ t.planes, p.signedDistance ⟨1, 0, -1⟩ ≠ 0) ∧
      ¬ t.Inside ⟨1, 0, -1⟩ ∧ t.invert.Inside ⟨1, 0, -1⟩ := by
  obtain ⟨htwice, hwalk, hinside⟩ := complements_invert Double.neg_neg
  refine ⟨Double.neg_neg, htwice, hwalk, _, rfl, rfl, by simp [Grown], ?_, ?_⟩
  · simp [planes, Plane.signedDistance, Vec3.dot]
  · have houtside : ¬ (node (some ⟨⟨0, 0, 1⟩, 0⟩) [] absent
        (node (some ⟨⟨1, 0, 0⟩, 0⟩) [] absent absent) : Tree ℝ).Inside ⟨1, 0, -1⟩ := by
      norm_num [Inside, isAbsent, Plane.signedDistance, Vec3.dot]
    refine ⟨houtside, (hinside _ _ rfl (by simp [Grown]) ?_).mpr houtside⟩
    simp [planes, Plane.signedDistance, Vec3.dot]

end Tree

end Solids
