import Solids.Kernel
import Solids.Recipe.Path
import Solids.Recipe
/-!
# Solids.Recipe.Compile

**Having a modeller make a recipe.** The nodes are made from the bottom up, the
children of a node in their order and before the node itself, with one operation
for each. The first refusal ends it and is reported with the place of its node.
-/

namespace Solids

/-- A refusal by a modeller and the place of the node it is about. -/
structure CompileError (K : Type) where
  /-- The place of the node. -/
  path : Path
  /-- The refusal. -/
  source : KernelError K

/-- The text of a compile error. -/
def CompileError.message (e : CompileError Double) : String :=
  "failed to compile node at `" ++ e.path.text ++ "`: " ++ e.source.message

namespace Kernel

variable {m : Type → Type} [Monad m] {K G : Type}

/-- An answer of a modeller, its refusal being about the node at `path`. -/
@[inline] def placed {α : Type} (path : Path) (answer : ExceptT (KernelError K) m α) :
    ExceptT (CompileError K) m α :=
  ExceptT.mk (Except.mapError (CompileError.mk path) <$> answer.run)

/-- Performs an operation for the node at `path`. -/
@[inline] def performAt (k : Kernel m K G) (path : Path) (operation : Operation K G) :
    ExceptT (CompileError K) m G :=
  placed path (k.perform operation)

variable [Scalar K] [Trig K]

mutual

/-- Has the node at `path` made. -/
def compileNode (k : Kernel m K G) (path : Path) : Node K → ExceptT (CompileError K) m G
  | .shape s => k.performAt path (.make s)
  | .combine combination children => do
    let operands ← compileItems k (path.key "children") 0 children
    k.performAt path (.combine combination operands)
  | .move motion child => do
    let operand ← compileNode k (path.key "child") child
    k.performAt path (.move motion.inRadians operand)

/-- Has nodes made that are items of an array at `path`, the first one at position
`i`. -/
def compileItems (k : Kernel m K G) (path : Path) (i : Nat) :
    List (Node K) → ExceptT (CompileError K) m (List G)
  | [] => return []
  | n :: rest => do
    let g ← compileNode k (path.index i) n
    let gs ← compileItems k path (i + 1) rest
    return g :: gs

end

end Kernel

end Solids
