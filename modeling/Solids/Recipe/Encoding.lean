import Solids.Json.Geometry
import Solids.Recipe
/-!
# Solids.Recipe.Encoding

**Recipes as JSON.** The fields come in a fixed order, the type of a node first. An
option that is not set is left out.
-/

namespace Solids

/-- A field that is only there if it has a value. -/
def optionalField {α : Type} (key : String) (encode : α → Json) :
    Option α → List (String × Json)
  | none => []
  | some value => [(key, encode value)]

/-- The fields of a shape after its type. -/
def Shape.fields : Shape Double → List (String × Json)
  | .cuboid size center => ("size", size.toJson) :: optionalField "center" Vec3.toJson center
  | .sphere radius center segments =>
    ("radius", radius.toJson) :: (optionalField "center" Vec3.toJson center
      ++ optionalField "segments" (fun n => Json.ofNat n.toNat) segments)
  | .cylinder height radius center segments =>
    ("height", height.toJson) :: ("radius", radius.toJson)
      :: (optionalField "center" Vec3.toJson center
        ++ optionalField "segments" (fun n => Json.ofNat n.toNat) segments)

/-- The field of a motion. -/
def Motion.field : Motion Double → String × Json
  | .translate offset => ("offset", offset.toJson)
  | .rotate angles => ("angles", angles.toJson)
  | .scale factors => ("factors", factors.toJson)

namespace Node

mutual

/-- The node as a JSON object. -/
def toJson : Node Double → Json
  | .shape s => .object (("type", .string s.service.name) :: s.fields)
  | .combine combination children =>
    .object [("type", .string combination.service.name), ("children", .array (allToJson children))]
  | .move motion child =>
    .object [("type", .string motion.service.name), motion.field, ("child", child.toJson)]

/-- The nodes as JSON objects. -/
def allToJson : List (Node Double) → List Json
  | [] => []
  | n :: rest => n.toJson :: allToJson rest

end

theorem allToJson_eq_map (ns : List (Node Double)) : allToJson ns = ns.map toJson := by
  induction ns with
  | nil => rfl
  | cons n rest ih => simp [allToJson, ih]

end Node

/-- The recipe as a JSON object. -/
def Recipe.toJson (r : Recipe Double) : Json :=
  .object (("version", .number (.natural r.version)) :: ("units", .string r.units.name)
    :: (optionalField "name" Json.string r.name ++ [("root", r.root.toJson)]))

end Solids
