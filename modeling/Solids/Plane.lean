import Solids.Vertex
/-!
# Solids.Plane

**Oriented planes** in normal form: the plane with normal `n` and offset `w`
holds the points `p` with `n · p = w`. Points further along the normal are in
front of it, the others behind it.

Design points:

* Which side a point is on is decided with a tolerance `eps`, which every
  definition that needs it takes as an argument. Points closer than that are *on*
  the plane.
* The sides of several points combine by `Side.join`: points on the plane change
  nothing, and a front and a back point together lie `across`.
-/

namespace Solids

/-- Where points lie with respect to a plane. -/
inductive Side where
  /-- On the plane, within the tolerance. -/
  | on
  /-- In front of the plane. -/
  | front
  /-- Behind the plane. -/
  | back
  /-- Some in front and some behind. -/
  | across
  deriving DecidableEq, Repr

namespace Side

/-- The side of two sets of points taken together. -/
@[inline] def join : Side → Side → Side
  | .on, s => s
  | s, .on => s
  | .front, .front => .front
  | .back, .back => .back
  | _, _ => .across

/-- The side after the plane is turned over. -/
def flip : Side → Side
  | .on => .on
  | .front => .back
  | .back => .front
  | .across => .across

@[simp] theorem on_join (s : Side) : Side.on.join s = s := by cases s <;> rfl

@[simp] theorem join_on (s : Side) : s.join .on = s := by cases s <;> rfl

theorem join_comm (s t : Side) : s.join t = t.join s := by cases s <;> cases t <;> rfl

theorem join_assoc (s t u : Side) : (s.join t).join u = s.join (t.join u) := by
  cases s <;> cases t <;> cases u <;> rfl

theorem flip_join (s t : Side) : (s.join t).flip = s.flip.join t.flip := by
  cases s <;> cases t <;> rfl

end Side

/-- A plane with a front and a back. -/
structure Plane (K : Type) where
  /-- The direction of the front. -/
  normal : Vec3 K
  /-- The offset along the normal. -/
  w : K
  deriving Repr

namespace Plane

variable {K : Type} [Scalar K]

/-- The horizontal plane through the origin, taken where no plane can be
derived. -/
def ground : Plane K := ⟨Vec3.unitZ, 0⟩

/-! ### Making planes -/

/-- The plane with this normal and offset, both divided by the length of the
normal. -/
def ofNormal (normal : Vec3 K) (w : K) : Plane K :=
  let length := normal.norm
  if length < Scalar.epsilon then ground else ⟨normal.divide length, w / length⟩

/-- The plane through `point` with this normal, made a unit vector. -/
@[inline] def through (normal point : Vec3 K) : Plane K :=
  let unit := normal.normalize
  ⟨unit, unit.dot point⟩

/-- The term that the edge from `a` to `b` adds to the normal of a closed
outline. -/
@[inline] def edgeTerm (a b : Vec3 K) : Vec3 K :=
  ⟨(a.y - b.y) * (a.z + b.z), (a.z - b.z) * (a.x + b.x), (a.x - b.x) * (a.y + b.y)⟩

/-- The edges of a closed outline: each corner with the next one, the last with
the first. -/
@[inline] def edges {α : Type} : List α → List (α × α)
  | [] => []
  | first :: rest => (first :: rest).zip (rest ++ [first])

/-- The sum of the edge terms of a closed outline. It points to the side from
which the outline runs counter-clockwise, and is twice as long as the area is
large. -/
@[specialize] def outlineNormal (corners : List (Vertex K)) : Vec3 K :=
  (edges corners).foldl (fun n e => n + edgeTerm e.1.pos e.2.pos) 0

/-- The mean of the corners' positions. -/
@[specialize] def centroid (corners : List (Vertex K)) : Vec3 K :=
  (corners.foldl (fun c v => c + v.pos) (0 : Vec3 K)).divide (Scalar.ofNat corners.length)

/-- The plane that fits a closed outline: its normal is that of the outline and
it goes through the centroid. Fewer than three corners, or an outline with no
area, give the ground plane. -/
@[specialize] def ofVertices (corners : List (Vertex K)) : Plane K :=
  if corners.length < 3 then ground
  else
    match (outlineNormal corners).normalize? with
    | some n => ⟨n, n.dot (centroid corners)⟩
    | none => ground

/-! ### Points and planes -/

/-- The plane turned over: front and back exchanged. -/
@[inline] def flip (p : Plane K) : Plane K := ⟨-p.normal, -p.w⟩

/-- How far a point is in front of the plane; negative behind it. -/
@[inline] def signedDistance (p : Plane K) (point : Vec3 K) : K := p.normal.dot point - p.w

/-- The side a point is on. A distance that does not compare counts as on the
plane. -/
@[inline] def sideOf (eps : K) (p : Plane K) (point : Vec3 K) : Side :=
  let t := p.signedDistance point
  if t < -eps then .back else if eps < t then .front else .on

/-- The side of all `corners` together. -/
@[specialize] def sideOfAll (eps : K) (p : Plane K) (corners : List (Vertex K)) : Side :=
  corners.foldl (fun s v => s.join (p.sideOf eps v.pos)) .on

/-- The plane moved by `motion`, its normal by `normals`, the transposed inverse
of `motion`; `point` is any point of the plane before. A plane whose new normal
is too short stays where it was. -/
def transform (motion normals : Mat4 K) (point : Vec3 K) (p : Plane K) : Plane K :=
  match (normals.mapVector p.normal).normalize? with
  | some n => through n (motion.mapPoint point)
  | none => p

@[simp] theorem flip_normal (p : Plane K) : p.flip.normal = -p.normal := rfl

@[simp] theorem flip_w (p : Plane K) : p.flip.w = -p.w := rfl

end Plane

end Solids
