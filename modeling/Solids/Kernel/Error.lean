import Solids.Decimal.Layout
import Solids.Double
import Solids.Operation
/-!
# Solids.Kernel.Error

**Why a modeller refuses an operation.** Each constructor is a cause; its text is
made in one place, `KernelError.message`.
-/

namespace Solids

/-- The dimensions of a shape that a modeller checks. -/
inductive Parameter where
  /-- The edge lengths of a box. -/
  | size
  /-- The center of a shape. -/
  | center
  /-- The radius of a ball or cylinder. -/
  | radius
  /-- The height of a cylinder. -/
  | height
  deriving DecidableEq, Repr

/-- The name of a parameter in messages. -/
def Parameter.name : Parameter → String
  | .size => "size"
  | .center => "center"
  | .radius => "radius"
  | .height => "height"

/-- The reasons for which a modeller refuses an operation. -/
inductive KernelError (K : Type) where
  /-- A length is not a positive finite number. -/
  | notPositive (parameter : Parameter) (value : K)
  /-- A component is not finite. -/
  | notFinite (parameter : Parameter) (values : Vec3 K)
  /-- An edge length of a box is negative. -/
  | negativeSize (size : Vec3 K)
  /-- A round shape has too few segments to have an inside. -/
  | tooFewSegments (segments : UInt32)
  /-- A round shape has more segments than the modeller makes faces for. -/
  | tooManySegments (segments : UInt32)
  /-- The motion cannot be undone. -/
  | singularTransform
  /-- The motion took a corner out of the range of numbers. -/
  | nonFinite
  /-- There is nothing to combine or measure. -/
  | noOperands (service : Service)
  deriving Repr

namespace KernelError

/-- The components of a vector in brackets. -/
def listText (v : Vec3 Double) : String :=
  "[" ++ String.intercalate ", " (v.toList.map fun x => Layout.explicit.text x.reading) ++ "]"

/-- A refusal of one parameter and the reason for it. -/
def invalid (parameter : Parameter) (reason : String) : String :=
  "invalid " ++ parameter.name ++ ": " ++ reason

/-- The text of a refusal. -/
def message : KernelError Double → String
  | .notPositive parameter value =>
    invalid parameter ("must be a positive finite number, got " ++ Layout.plain.text value.reading)
  | .notFinite parameter values =>
    invalid parameter ("components must be finite, got " ++ listText values)
  | .negativeSize size =>
    invalid .size ("components must not be negative, got " ++ listText size)
  | .tooFewSegments segments =>
    "segments must be four or more, got " ++ toString segments.toNat
  | .tooManySegments segments =>
    toString segments.toNat ++ " segments would tessellate into too many polygons"
  | .singularTransform => "transform matrix is not invertible (zero scale factor?)"
  | .nonFinite => "transform produced a non-finite coordinate"
  | .noOperands service => service.name ++ " needs at least one operand"

end KernelError

end Solids
