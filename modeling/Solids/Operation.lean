import Solids.Vec3
/-!
# Solids.Operation

**What a solid modeller can be asked to do**: make a basic shape, combine solids,
or move one.

The three kinds are data, so that a recipe, the modeller and a record of its calls
share one vocabulary. `Operation G` is a single request; `G` is whatever the
modeller hands out as geometry.
-/

namespace Solids

/-- A solid described by its dimensions. A missing center is the origin. -/
inductive Shape (K : Type) where
  /-- An axis-aligned box with these edge lengths. -/
  | cuboid (size : Vec3 K) (center : Option (Vec3 K))
  /-- A ball, made of flat faces in as many segments around the vertical axis. -/
  | sphere (radius : K) (center : Option (Vec3 K)) (segments : Option UInt32)
  /-- An upright cylinder, made of flat faces in as many segments. -/
  | cylinder (height radius : K) (center : Option (Vec3 K)) (segments : Option UInt32)
  deriving Repr

/-- A way to make one solid of several. -/
inductive Combination where
  /-- Everything in any of them. -/
  | union
  /-- Everything in the first but in none of the others. -/
  | subtract
  /-- Everything in all of them. -/
  | intersect
  deriving DecidableEq, Repr

/-- A way to move a solid. -/
inductive Motion (K : Type) where
  /-- By an offset. -/
  | translate (offset : Vec3 K)
  /-- About the three axes in turn; a recipe gives the angles in degrees, an
  operation in radians. -/
  | rotate (angles : Vec3 K)
  /-- By a factor for each axis. -/
  | scale (factors : Vec3 K)
  deriving Repr

/-- One request to a modeller. -/
inductive Operation (K G : Type) where
  /-- Make a shape. -/
  | make (shape : Shape K)
  /-- Combine solids in the order given. -/
  | combine (combination : Combination) (operands : List G)
  /-- Move a solid; angles are in radians. -/
  | move (motion : Motion K) (operand : G)

/-- The names of a modeller's services. -/
inductive Service where
  /-- Make a box. -/
  | cuboid
  /-- Make a ball. -/
  | sphere
  /-- Make a cylinder. -/
  | cylinder
  /-- Move by an offset. -/
  | translate
  /-- Turn. -/
  | rotate
  /-- Stretch. -/
  | scale
  /-- Unite. -/
  | union
  /-- Subtract. -/
  | subtract
  /-- Intersect. -/
  | intersect
  /-- Find the bounding box. -/
  | measure
  deriving DecidableEq, Repr

namespace Service

/-- The name of a service, as recipes and messages write it. -/
def name : Service → String
  | .cuboid => "cuboid"
  | .sphere => "sphere"
  | .cylinder => "cylinder"
  | .translate => "translate"
  | .rotate => "rotate"
  | .scale => "scale"
  | .union => "union"
  | .subtract => "subtract"
  | .intersect => "intersect"
  | .measure => "measure"

end Service

/-- The service that makes a shape. -/
def Shape.service {K : Type} : Shape K → Service
  | .cuboid .. => .cuboid
  | .sphere .. => .sphere
  | .cylinder .. => .cylinder

/-- The service that combines solids. -/
def Combination.service : Combination → Service
  | .union => .union
  | .subtract => .subtract
  | .intersect => .intersect

/-- The service that moves a solid. -/
def Motion.service {K : Type} : Motion K → Service
  | .translate _ => .translate
  | .rotate _ => .rotate
  | .scale _ => .scale

/-- The service an operation asks for. -/
def Operation.service {K G : Type} : Operation K G → Service
  | .make shape => shape.service
  | .combine combination _ => combination.service
  | .move motion _ => motion.service

/-- The geometries an operation uses, in order. -/
def Operation.operands {K G : Type} : Operation K G → List G
  | .make _ => []
  | .combine _ operands => operands
  | .move _ operand => [operand]

/-- The number of segments a shape asks for, if it does. -/
def Shape.segments? {K : Type} : Shape K → Option UInt32
  | .cuboid _ _ => none
  | .sphere _ _ segments => segments
  | .cylinder _ _ _ segments => segments

end Solids
