import Solids.BoundingBox
import Solids.Double
import Solids.Json
/-!
# Solids.Json.Geometry

**Doubles, vectors and boxes as JSON**: a vector is the array of its components, a box
the array of its two corners.
-/

namespace Solids

/-- A JSON number as a double. -/
def Number.toDouble (n : Number) : Double := .ofFloat n.toFloat

/-- A number, or `null` for what is not finite. -/
def Double.toJson : Double → Json
  | .number value _ => .ofFloat value
  | .nan _ => .null

/-- The array of the components. -/
def Vec3.toJson (v : Vec3 Double) : Json := .array (v.toList.map Double.toJson)

/-- The array of the lower and the upper corner. -/
def BoundingBox.toJson (b : BoundingBox Double) : Json := .array [b.lower.toJson, b.upper.toJson]

end Solids
