/-!
# Solids.Export.FileFormat

**The formats of model files.**
-/

namespace Solids

/-- A format of model files. -/
inductive FileFormat where
  /-- STL as text. -/
  | stl
  /-- STL in binary form. -/
  | stlBinary
  /-- Wavefront OBJ. -/
  | obj
  deriving DecidableEq, Repr

namespace FileFormat

/-- The name of a format. -/
def name : FileFormat → String
  | .stl => "stl"
  | .stlBinary => "stl-binary"
  | .obj => "obj"

/-- The ending of the names of files. -/
def extension : FileFormat → String
  | .stl => "stl"
  | .stlBinary => "stl"
  | .obj => "obj"

/-- The media type of files. -/
def mime : FileFormat → String
  | .stl => "model/stl"
  | .stlBinary => "model/stl"
  | .obj => "model/obj"

/-- All formats. -/
def all : List FileFormat := [.stl, .stlBinary, .obj]

/-- The format with a name. -/
def ofName? (name : String) : Option FileFormat := all.find? fun f => f.name = name

/-- What is said of a name that no format has. -/
def unknownMessage (name : String) : String :=
  "unknown export format `" ++ name ++ "`, expected one of "
    ++ String.intercalate ", " (all.map FileFormat.name)

@[simp] theorem ofName?_name (f : FileFormat) : ofName? f.name = some f := by
  cases f <;> decide

end FileFormat

end Solids
