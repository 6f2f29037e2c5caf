import Solids.Json
import Solids.Operation
/-!
# Solids.Recipe

**Recipes**: trees of shapes, combinations and motions, with a unit of length and
perhaps a name.

The angles of a rotation in a recipe are degrees. A recipe made in code may hold
anything its types allow; one that was read obeys the rules of
`Solids.Recipe.Validation`.
-/

namespace Solids

/-- A node of a recipe, which stands for a solid. -/
inductive Node (K : Type) where
  /-- A shape. -/
  | shape (shape : Shape K)
  /-- Several solids made into one. -/
  | combine (combination : Combination) (children : List (Node K))
  /-- A solid moved. -/
  | move (motion : Motion K) (child : Node K)

namespace Node

variable {K : Type}

/-- The service of a modeller that makes the node. -/
def service : Node K → Service
  | .shape s => s.service
  | .combine combination _ => combination.service
  | .move motion _ => motion.service

/-- The name of the kind of node. -/
def kind (n : Node K) : String := n.service.name

/-- The nodes directly below. -/
def children : Node K → List (Node K)
  | .shape _ => []
  | .combine _ children => children
  | .move _ child => [child]

/-- The number of segments that the node itself asks for, if it does. -/
def segments? : Node K → Option UInt32
  | .shape s => s.segments?
  | _ => none

end Node

/-- Units of length. -/
inductive Units where
  /-- Millimeters. -/
  | mm
  /-- Centimeters. -/
  | cm
  /-- Meters. -/
  | m
  deriving DecidableEq, Repr

namespace Units

/-- The name of a unit. -/
def name : Units → String
  | .mm => "mm"
  | .cm => "cm"
  | .m => "m"

/-- The number of millimeters in a unit. -/
def millimeters : Units → Nat
  | .mm => 1
  | .cm => 10
  | .m => 1000

/-- All units. -/
def all : List Units := [.mm, .cm, .m]

/-- The unit with a name. -/
def ofName? (name : String) : Option Units := all.find? fun u => u.name = name

@[simp] theorem ofName?_name (u : Units) : ofName? u.name = some u := by cases u <;> decide

end Units

/-- A recipe for a solid. -/
structure Recipe (K : Type) where
  /-- The version of the format the recipe is in. -/
  version : UInt64 := 1
  /-- The unit of its lengths. -/
  units : Units := .mm
  /-- What the solid is called. -/
  name : Option String := none
  /-- The solid. -/
  root : Node K

end Solids
