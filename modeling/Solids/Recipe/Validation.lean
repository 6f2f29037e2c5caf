import Solids.Json.Geometry
import Solids.Json.Nesting
import Solids.Json.Reader
import Solids.Recipe
import Solids.Recipe.Mismatch
/-!
# Solids.Recipe.Validation

**Reading recipes from JSON.** A document is read from the top, and the first value
that does not fit is reported with its place.

Main definitions:

* `Node.ofJson` and `Recipe.ofJson` — the node or recipe that a JSON value is;
* `Recipe.ofText` — the recipe that a text is;
* `Recipe.decode` — the same for a reader that wants one kind of error for
  everything that can be wrong with a text.

Design points:

* The fields of an object are looked up one by one, so further ones are of no
  account. A field that may be left out may not be `null`.
* A node is read with a number of levels left for it and those below. With none
  left it is refused before anything else is looked at.
* A text is refused if its brackets are nested more deeply than those of any recipe
  can be. The reader, whose own limit is higher, is then never the one to complain
  about nesting.
-/

namespace Solids

/-! ### Values -/

namespace Json

/-- The fields of an object. -/
def expectObject (path : Path) : Json → Except ValidationError (List (String × Json))
  | .object fields => .ok fields
  | _ => .error ⟨path, .expectedObject⟩

/-- The items of an array. -/
def expectArray (path : Path) : Json → Except ValidationError (List Json)
  | .array items => .ok items
  | _ => .error ⟨path, .expectedArray⟩

/-- A text. -/
def expectString (path : Path) : Json → Except ValidationError String
  | .string value => .ok value
  | _ => .error ⟨path, .expectedString⟩

/-- A number. -/
def expectNumber (path : Path) : Json → Except ValidationError Number
  | .number value => .ok value
  | _ => .error ⟨path, .expectedNumber⟩

/-- A number as a double, which must be finite. -/
def expectDouble (path : Path) (v : Json) : Except ValidationError Double := do
  let x := (← v.expectNumber path).toDouble
  if x.isFinite then return x else .error ⟨path, .expectedNumber⟩

/-- A vector. -/
def expectVec3 (path : Path) (v : Json) : Except ValidationError (Vec3 Double) := do
  match ← v.expectArray path with
  | [x, y, z] =>
    let x ← x.expectDouble (path.index 0)
    let y ← y.expectDouble (path.index 1)
    let z ← z.expectDouble (path.index 2)
    return ⟨x, y, z⟩
  | items => .error ⟨path, .wrongArity items.length⟩

/-- A number greater than zero. -/
def expectPositive (path : Path) (v : Json) : Except ValidationError Double := do
  let x ← v.expectDouble path
  if 0 < x then return x else .error ⟨path, .notPositive x⟩

/-- A number of segments: an integer from one up to what 32 bits hold. -/
def expectSegments (path : Path) (v : Json) : Except ValidationError UInt32 := do
  let x ← v.expectDouble path
  match x.natural? with
  | some n =>
    if 0 < n ∧ n < Nat.pow 2 32 then return n.toUInt32
    else .error ⟨path, .notPositiveInteger v⟩
  | none => .error ⟨path, .notPositiveInteger v⟩

end Json

/-! ### Fields -/

/-- An object at a place of a document. -/
structure PlacedObject where
  /-- Its fields. -/
  fields : List (String × Json)
  /-- Its place. -/
  path : Path

namespace PlacedObject

variable {α : Type}

/-- A field that must be there. -/
def required (o : PlacedObject) (key : String) : Except ValidationError Json :=
  match Json.field? o.fields key with
  | some value => .ok value
  | none => .error ⟨o.path.key key, .missingField key⟩

/-- Reads a field that must be there. -/
def get (o : PlacedObject) (key : String) (read : Path → Json → Except ValidationError α) :
    Except ValidationError α := do
  read (o.path.key key) (← o.required key)

/-- Reads a field that may be left out. -/
def getOptional (o : PlacedObject) (key : String)
    (read : Path → Json → Except ValidationError α) : Except ValidationError (Option α) :=
  match Json.field? o.fields key with
  | some value => some <$> read (o.path.key key) value
  | none => .ok none

/-- The optional center of a shape. -/
def center (o : PlacedObject) : Except ValidationError (Option (Vec3 Double)) :=
  o.getOptional "center" fun path v => v.expectVec3 path

/-- The optional number of segments of a shape. -/
def segments (o : PlacedObject) : Except ValidationError (Option UInt32) :=
  o.getOptional "segments" fun path v => v.expectSegments path

/-- The fields of a box. -/
def cuboid (o : PlacedObject) : Except ValidationError (Shape Double) := do
  let size ← o.get "size" fun path v => v.expectVec3 path
  let center ← o.center
  return .cuboid size center

/-- The fields of a ball. -/
def sphere (o : PlacedObject) : Except ValidationError (Shape Double) := do
  let radius ← o.get "radius" fun path v => v.expectPositive path
  let center ← o.center
  let segments ← o.segments
  return .sphere radius center segments

/-- The fields of a cylinder. -/
def cylinder (o : PlacedObject) : Except ValidationError (Shape Double) := do
  let height ← o.get "height" fun path v => v.expectPositive path
  let radius ← o.get "radius" fun path v => v.expectPositive path
  let center ← o.center
  let segments ← o.segments
  return .cylinder height radius center segments

end PlacedObject

/-! ### Nodes -/

namespace Node

/-- Reads the items of an array at `path`, the first one at position `i`. -/
def itemsFrom {α : Type} (read : Path → Json → Except ValidationError α) (path : Path) (i : Nat) :
    List Json → Except ValidationError (List α)
  | [] => .ok []
  | item :: rest => do
    let a ← read (path.index i) item
    let others ← itemsFrom read path (i + 1) rest
    return a :: others

/-- Reads the children of a combination, of which there must be some. -/
def childrenOf (o : PlacedObject) (read : Path → Json → Except ValidationError (Node Double)) :
    Except ValidationError (List (Node Double)) :=
  o.get "children" fun path v => do
    let items ← v.expectArray path
    if items.isEmpty then .error ⟨path, .emptyChildren⟩ else itemsFrom read path 0 items

/-- Reads a combination. -/
def combinationOf (o : PlacedObject) (combination : Combination)
    (read : Path → Json → Except ValidationError (Node Double)) :
    Except ValidationError (Node Double) :=
  return .combine combination (← childrenOf o read)

/-- Reads a motion with its vector under `key`. -/
def motionOf (o : PlacedObject) (key : String) (motion : Vec3 Double → Motion Double)
    (read : Path → Json → Except ValidationError (Node Double)) :
    Except ValidationError (Node Double) := do
  let v ← o.get key fun path v => v.expectVec3 path
  let child ← o.get "child" read
  return .move (motion v) child

/-- Reads a node by its type; `read` reads the nodes below it. -/
def ofKind (kind : String) (o : PlacedObject)
    (read : Path → Json → Except ValidationError (Node Double)) :
    Except ValidationError (Node Double) :=
  match kind with
  | "cuboid" => .shape <$> o.cuboid
  | "sphere" => .shape <$> o.sphere
  | "cylinder" => .shape <$> o.cylinder
  | "union" => combinationOf o .union read
  | "subtract" => combinationOf o .subtract read
  | "intersect" => combinationOf o .intersect read
  | "translate" => motionOf o "offset" .translate read
  | "rotate" => motionOf o "angles" .rotate read
  | "scale" => motionOf o "factors" .scale read
  | other => .error ⟨o.path.key "type", .unknownNodeType other⟩

/-- Reads a node that may have so many levels. -/
def ofJsonWithin : Nat → Path → Json → Except ValidationError (Node Double)
  | 0, path, _ => .error ⟨path, .tooDeep⟩
  | levels + 1, path, v => do
    let o : PlacedObject := ⟨← v.expectObject path, path⟩
    let kind ← o.get "type" fun path v => v.expectString path
    ofKind kind o (ofJsonWithin levels)

/-- The node that a value at `path` is. -/
def ofJson (path : Path) (v : Json) : Except ValidationError (Node Double) :=
  ofJsonWithin maxLevels path v

end Node

/-! ### Documents -/

namespace Recipe

/-- The value of the `version` field must be the number of the version. -/
def checkVersion (path : Path) : Json → Except ValidationError Unit
  | .number number =>
    if number.natural? = some recipeVersion then .ok ()
    else .error ⟨path, .unsupportedVersion (.number number)⟩
  | v => .error ⟨path, .unsupportedVersion v⟩

/-- The unit that a value names. -/
def readUnits (path : Path) (v : Json) : Except ValidationError Units := do
  let name ← v.expectString path
  match Units.ofName? name with
  | some units => return units
  | none => .error ⟨path, .unknownUnits name⟩

/-- The recipe that a value is. -/
def ofJson (v : Json) : Except ValidationError (Recipe Double) := do
  let o : PlacedObject := ⟨← v.expectObject .document, .document⟩
  o.get "version" checkVersion
  let units ← o.getOptional "units" readUnits
  let name ← o.getOptional "name" fun path v => v.expectString path
  let root ← o.get "root" Node.ofJson
  return { version := recipeVersion.toUInt64, units := units.getD .mm, name, root }

/-- The deepest nesting of brackets in a text that is read: an object and an array
for each level, the document, and one vector. -/
def nestingLimit : Nat := 2 * maxLevels + 2

/-- The recipe that a text is. -/
def ofText (text : String) : Except ValidationError (Recipe Double) :=
  let chars := text.toList
  if nestingLimit < Json.bracketDepth chars then .error ⟨.document, .tooDeep⟩
  else
    match Json.read chars with
    | .ok v => ofJson v
    | .error fault => .error ⟨.document, .malformed (fault.text chars)⟩

/-- The recipe at the start of a text that has nothing else in it. Whatever is wrong
is told in words. -/
def decode (text : String) : Except String (Recipe Double) := do
  let chars := text.toList
  let (v, rest) ← (Json.readValue chars).mapError (·.text chars)
  let recipe ← (ofJson v).mapError ValidationError.message
  (Json.requireBlank rest).mapError (·.text chars)
  return recipe

end Recipe

end Solids
