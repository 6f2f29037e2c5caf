import Solids.Recipe.Compile
import Solids.Recipe.Measure
import Solids.Recipe.Validation
/-!
# Solids.Recipe.Pipeline

**From a recipe to a measured solid.** A recipe that is too large is refused before
a modeller is asked for anything; then it is made, perhaps scaled to millimeters,
and measured.

Main definitions:

* `Recipe.checkLimits` — the limits, in the order in which they are applied;
* `Recipe.compile` — the whole way;
* `Recipe.compileJson` — the same for a value that may be a recipe.
-/

namespace Solids

/-- What the unit of a recipe is for. -/
inductive UnitPolicy where
  /-- It is information, and lengths are taken as they are written. -/
  | asWritten
  /-- Lengths are converted to millimeters. -/
  | toMillimeters
  deriving DecidableEq, Repr

/-- The limits for recipes, and the policy for their units. -/
structure CompileOptions where
  /-- The largest number of nodes. -/
  maxNodes : Nat := 500
  /-- The largest number of segments a node may ask for, if there is a limit. -/
  maxSegments : Option UInt32 := none
  /-- What the unit is for. -/
  units : UnitPolicy := .asWritten
  deriving Repr

/-- The ways in which a recipe can be too large. -/
inductive ComplexityError where
  /-- It has too many nodes. -/
  | tooManyNodes (count limit : Nat)
  /-- A node asks for too many segments. -/
  | tooManySegments (path : Path) (segments limit : UInt32)
  /-- It has too many levels. -/
  | tooDeep (depth limit : Nat)
  deriving Repr

/-- The text of a complexity error. -/
def ComplexityError.message : ComplexityError → String
  | .tooManyNodes count limit =>
    "Recipe too complex: " ++ toString count ++ " nodes (max " ++ toString limit ++ ")"
  | .tooManySegments path segments limit =>
    "`" ++ path.text ++ "` requests " ++ toString segments.toNat ++ " segments (max "
      ++ toString limit.toNat ++ ")"
  | .tooDeep depth limit =>
    "Recipe nested too deeply: " ++ toString depth ++ " levels (max " ++ toString limit ++ ")"

/-- Why there is no solid for a recipe. -/
inductive RecipeError (K : Type) where
  /-- It is no recipe. -/
  | validation (error : ValidationError)
  /-- It is too large. -/
  | complexity (error : ComplexityError)
  /-- The modeller refused. -/
  | compile (error : CompileError K)

/-- The text of a recipe error. -/
def RecipeError.message : RecipeError Double → String
  | .validation error => error.message
  | .complexity error => error.message
  | .compile error => error.message

/-- A solid with what was measured on the way. -/
structure Compiled (K G : Type) where
  /-- The solid. -/
  geometry : G
  /-- The number of nodes of its recipe. -/
  nodeCount : Nat
  /-- Its bounding box. -/
  boundingBox : BoundingBox K

namespace Recipe

variable {K : Type}

/-- The largest request for segments stays within the limit, if there is one. -/
def checkSegments (options : CompileOptions) (r : Recipe K) : Except ComplexityError Unit :=
  match options.maxSegments with
  | none => .ok ()
  | some limit =>
    match r.root.maxSegments .root with
    | none => .ok ()
    | some (path, segments) =>
      if limit < segments then .error (.tooManySegments path segments limit) else .ok ()

/-- The number of nodes of a recipe that is not too large. -/
def checkLimits (options : CompileOptions) (r : Recipe K) : Except ComplexityError Nat :=
  let count := r.root.count
  let depth := r.root.depth
  if options.maxNodes < count then .error (.tooManyNodes count options.maxNodes)
  else if maxLevels < depth then .error (.tooDeep depth maxLevels)
  else do
    checkSegments options r
    return count

/-- The motion that converts the lengths of a recipe, if they need it. -/
def unitScale? [Scalar K] (options : CompileOptions) (r : Recipe K) : Option (Motion K) :=
  let factor := r.units.millimeters
  if options.units = .toMillimeters ∧ factor ≠ 1 then
    some (.scale (Vec3.splat (Scalar.ofNat factor)))
  else none

variable {m : Type → Type} [Monad m] {G : Type} [Scalar K] [Trig K]

/-- Has the solid of a recipe made, converted and measured, whatever its size. -/
def construct (k : Kernel m K G) (options : CompileOptions) (r : Recipe K) :
    ExceptT (CompileError K) m (G × BoundingBox K) := do
  let made ← k.compileNode .root r.root
  let geometry ← match r.unitScale? options with
    | some motion => k.performAt .root (.move motion made)
    | none => pure made
  let box ← Kernel.placed .root (k.measure geometry)
  return (geometry, box)

/-- The solid of a recipe, unless the recipe is too large or the modeller refuses. -/
def compile (k : Kernel m K G) (options : CompileOptions) (r : Recipe K) :
    ExceptT (RecipeError K) m (Compiled K G) := ExceptT.mk do
  match r.checkLimits options with
  | .error e => return .error (.complexity e)
  | .ok nodeCount =>
    match ← (r.construct k options).run with
    | .error e => return .error (.compile e)
    | .ok (geometry, boundingBox) => return .ok { geometry, nodeCount, boundingBox }

/-- The solid of the recipe that a value is, if it is one. -/
def compileJson (k : Kernel m Double G) (options : CompileOptions) (v : Json) :
    ExceptT (RecipeError Double) m (Compiled Double G) :=
  match ofJson v with
  | .error e => throw (.validation e)
  | .ok r => r.compile k options

end Recipe

end Solids
