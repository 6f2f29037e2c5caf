import Solids.Double
import Solids.Json.Printer
import Solids.Recipe.Path
/-!
# Solids.Recipe.Mismatch

**What can be wrong with a recipe document**, and the text that says so.
-/

namespace Solids

/-- What is wrong with a value of a document. -/
inductive Mismatch where
  /-- The value is no object. -/
  | expectedObject
  /-- The value is no array. -/
  | expectedArray
  /-- The value is no number. -/
  | expectedNumber
  /-- The value is no string. -/
  | expectedString
  /-- The object that should have the value under this key does not. -/
  | missingField (key : String)
  /-- No type of node has this name. -/
  | unknownNodeType (name : String)
  /-- The array should have three items and has this many. -/
  | wrongArity (found : Nat)
  /-- The number should be greater than zero. -/
  | notPositive (value : Double)
  /-- The value should be a positive integer of 32 bits. -/
  | notPositiveInteger (value : Json)
  /-- The list of children is empty. -/
  | emptyChildren
  /-- The version is not the one that is supported. -/
  | unsupportedVersion (version : Json)
  /-- No unit has this name. -/
  | unknownUnits (name : String)
  /-- The text is not JSON, for this reason. -/
  | malformed (reason : String)
  /-- The node is nested too deeply. -/
  | tooDeep

/-- The version of the format in which recipes are written. -/
def recipeVersion : Nat := 1

/-- The greatest number of levels of a recipe that is read. -/
def maxLevels : Nat := 60

namespace Mismatch

/-- The text of a mismatch. -/
def text : Mismatch → String
  | .expectedObject => "expected an object"
  | .expectedArray => "expected an array"
  | .expectedNumber => "expected a number"
  | .expectedString => "expected a string"
  | .missingField key => "missing required field `" ++ key ++ "`"
  | .unknownNodeType name =>
    "unknown node type `" ++ name ++ "`, expected one of cuboid, sphere, cylinder, union, "
      ++ "subtract, intersect, translate, rotate, scale"
  | .wrongArity found => "expected exactly 3 numbers, found " ++ toString found
  | .notPositive value => "must be greater than zero, got " ++ Layout.plain.text value.reading
  | .notPositiveInteger value => "must be a positive integer, got " ++ value.compact
  | .emptyChildren => "`children` must contain at least one node"
  | .unsupportedVersion version =>
    "unsupported recipe version " ++ version.compact ++ ", expected " ++ toString recipeVersion
  | .unknownUnits name => "unknown units `" ++ name ++ "`, expected one of mm, cm, m"
  | .malformed reason => "malformed JSON: " ++ reason
  | .tooDeep => "nesting exceeds " ++ toString maxLevels ++ " node levels"

end Mismatch

/-- A mismatch and the place of the value. -/
structure ValidationError where
  /-- The place of the value. -/
  path : Path
  /-- What is wrong with it. -/
  cause : Mismatch

/-- The text of a validation error. -/
def ValidationError.message (e : ValidationError) : String :=
  "invalid recipe at `" ++ e.path.text ++ "`: " ++ e.cause.text

end Solids
