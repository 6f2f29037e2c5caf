import Solids.Kernel.Error
import Solids.Mesh.Boolean
import Solids.Mesh.Motion
import Solids.Mesh.Shape
/-!
# Solids.Kernel

**Solid modellers**, seen as what they answer to requests.

A `Kernel m K G` performs operations on geometries of type `G` and measures them.
It may refuse a request, and do whatever the monad `m` allows besides: keep a
record, count its calls, or not answer at all.

Main definitions:

* `Kernel.mesh` — the modeller that makes meshes;
* `Kernel.rehearsal` — a modeller without geometry, which numbers its calls;
* `Kernel.logged` — any modeller with a record of the requests made to it.
-/

namespace Solids

/-- A solid modeller. -/
structure Kernel (m : Type → Type) (K G : Type) where
  /-- Performs an operation and hands out its result. -/
  perform : Operation K G → ExceptT (KernelError K) m G
  /-- The bounding box of a geometry. -/
  measure : G → ExceptT (KernelError K) m (BoundingBox K)

/-- A request to a modeller. -/
inductive Request (K G : Type) where
  /-- To perform an operation. -/
  | perform (operation : Operation K G)
  /-- To measure a geometry. -/
  | measure (geometry : G)

/-- The service a request asks for. -/
def Request.service {K G : Type} : Request K G → Service
  | .perform operation => operation.service
  | .measure _ => .measure

namespace Kernel

variable {K G : Type}

/-! ### Meshes -/

/-- Combines meshes in the order given; there must be at least one. -/
@[specialize] def combineMeshes [Scalar K] (s : Settings K) (combination : Combination) :
    List (Mesh K) → ExceptT (KernelError K) Option (Mesh K)
  | [] => throw (.noOperands combination.service)
  | first :: rest => (Mesh.combineAll s combination first rest).map .ok

/-- The modeller that makes meshes. It gives no answer when a tree could not be
built within the levels of the settings. -/
@[inline] def mesh [Scalar K] [Trig K] (s : Settings K) : Kernel Option K (Mesh K) where
  perform
    | .make shape => ExceptT.mk (some (Mesh.ofShape shape))
    | .combine combination operands => combineMeshes s combination operands
    | .move motion operand => ExceptT.mk (some (operand.move motion))
  measure m := pure m.boundingBox

/-! ### Rehearsals -/

/-- A modeller that makes no geometry. It numbers the operations it is asked for
and hands out their numbers; number `refused`, if given, it refuses instead. The
box it measures reaches as far along the first axis as the number is large, unless
it refuses to measure. -/
def rehearsal [Scalar K] (refused : Option Nat) (refusesToMeasure : Bool) :
    Kernel (StateM Nat) K Nat where
  perform _ := do
    let number ← getModify (· + 1)
    if refused = some number then throw .nonFinite else return number
  measure g :=
    if refusesToMeasure then throw (.noOperands .measure)
    else return ⟨0, ⟨Scalar.ofNat g, 0, 0⟩⟩

/-! ### Records -/

/-- A modeller with a record of the requests made to it, the latest one first. A
request is recorded whether or not it is refused. -/
def logged {m : Type → Type} [Monad m] (k : Kernel m K G) :
    Kernel (StateT (List (Request K G)) m) K G where
  perform operation := ExceptT.mk do
    modify (.perform operation :: ·)
    (k.perform operation).run
  measure g := ExceptT.mk do
    modify (.measure g :: ·)
    (k.measure g).run

end Kernel

end Solids
