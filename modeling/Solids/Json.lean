import Solids.Decimal
/-!
# Solids.Json

**JSON values.**

Design points:

* A number keeps the kind it was read or made as: a natural number, a negative
  integer, or a double. Integers are thereby exact over the whole range of 64
  bits and are written without a point.
* There is no JSON for an infinity or a NaN, so `Number.real` holds a finite
  double, and `Json.ofFloat` of any other one is `null`.
* An integer has one form: `Number.negative` holds no other integers than its name
  says.
* An object is a list of fields, looked up by `get?`. The fields of an object that
  was read are in the order of their keys, and each key occurs once.
-/

namespace Solids

/-- A JSON number. -/
inductive Number where
  /-- An integer that is not negative. -/
  | natural (value : UInt64)
  /-- A negative integer. -/
  | negative (value : Int64) (isNegative : value < 0)
  /-- Any other number, as the double it was read as. -/
  | real (value : Float) (finite : value.isFinite = true)

/-- The number as a double; integers are rounded to the nearest one. -/
def Number.toFloat : Number → Float
  | .natural value => value.toFloat
  | .negative value _ => -value.toInt.natAbs.toUInt64.toFloat
  | .real value _ => value

/-- The natural number that the number is, if it is one. It does not matter how the
number is written. -/
def Number.natural? : Number → Option Nat
  | .natural value => some value.toNat
  | .negative .. => none
  | .real value _ => (Reading.ofFloat value).natural?

/-- A JSON value. -/
inductive Json where
  /-- The value `null`. -/
  | null
  /-- A truth value. -/
  | bool (value : Bool)
  /-- A number. -/
  | number (value : Number)
  /-- A text. -/
  | string (value : String)
  /-- A list of values. -/
  | array (items : List Json)
  /-- Values under keys. -/
  | object (fields : List (String × Json))

namespace Json

instance : Inhabited Json := ⟨.null⟩

/-- A double as a number, or `null` if it is not finite. -/
def ofFloat (x : Float) : Json :=
  if h : x.isFinite = true then .number (.real x h) else .null

/-- A natural number below `2 ^ 64`. -/
def ofNat (n : Nat) : Json := .number (.natural n.toUInt64)

/-- The value under a key of an object's fields. -/
def field? (fields : List (String × Json)) (key : String) : Option Json := fields.lookup key

/-- The value under a key, if this is an object that has the key. -/
def get? : Json → String → Option Json
  | .object fields, key => field? fields key
  | _, _ => none

/-- The item at a position, if this is an array that is long enough. -/
def item? : Json → Nat → Option Json
  | .array items, i => items[i]?
  | _, _ => none

/-- Puts a value under a key of fields in the order of their keys. A value already
there gives way. -/
def insertField (key : String) (value : Json) : List (String × Json) → List (String × Json)
  | [] => [(key, value)]
  | (k, v) :: rest =>
    if key < k then (key, value) :: (k, v) :: rest
    else if key = k then (key, value) :: rest
    else (k, v) :: insertField key value rest

@[simp] theorem get?_object (fields : List (String × Json)) (key : String) :
    (Json.object fields).get? key = field? fields key := rfl

/-- The value last put under a key is the one found there. -/
theorem field?_insertField_self (key : String) (value : Json) (fields : List (String × Json)) :
    field? (insertField key value fields) key = some value := by
  induction fields with
  | nil => simp [insertField, field?]
  | cons entry rest ih =>
    obtain ⟨k, v⟩ := entry
    simp only [insertField]
    split
    · simp [field?]
    · split
      · simp [field?]
      · next hne =>
        simp only [field?, List.lookup_cons] at *
        rw [show (key == k) = false from beq_eq_false_iff_ne.2 hne]
        exact ih

end Json

end Solids
