import Solids.Export.Base64
import Solids.Export.FileFormat
import Solids.Export.Obj
import Solids.Export.SafeName
import Solids.Export.Stl
import Solids.Json.Geometry
/-!
# Solids.Export

**Model files**: a mesh in one of the formats, under a safe name, and the JSON
envelope that holds such a file.

The program is modelled with its default features, among which is binary STL. So no
format is ever refused: the error of a build without that feature, that binary STL
requires it, is left out.
-/

namespace Solids

/-- What a file holds. -/
inductive Content where
  /-- Lines of text, each with a line break after it. -/
  | lines (lines : List String)
  /-- Bytes. -/
  | binary (bytes : List UInt8)

namespace Content

/-- The text of some lines. -/
def textOfLines (lines : List String) : String := String.join (lines.map (· ++ "\n"))

/-- The bytes of the file; text is in UTF-8. -/
def bytes : Content → List UInt8
  | .lines text => (textOfLines text).toUTF8.toList
  | .binary content => content

end Content

/-- A model file that is not written yet. -/
structure ModelFile where
  /-- Its format. -/
  format : FileFormat
  /-- Its name. -/
  name : String
  /-- What it holds. -/
  content : Content

/-- A mesh in a format. Formats that name the model inside the file use the safe form
of the name, too. -/
def ModelFile.ofMesh (m : Mesh Double) (format : FileFormat) (name : Option String) : ModelFile :=
  let safe := SafeName.ofName name
  { format
    name := safe ++ "." ++ format.extension
    content := match format with
      | .stl => .lines (Stl.lines safe m)
      | .stlBinary => .binary (Stl.bytes m)
      | .obj => .lines (Obj.lines safe m) }

/-- A model file in JSON, with what was measured when it was made. -/
def ModelFile.envelope (f : ModelFile) (nodeCount : Nat) (box : BoundingBox Double) : Json :=
  .object
    [("ok", .bool true),
     ("format", .string f.format.name),
     ("filename", .string f.name),
     ("mime", .string f.format.mime),
     ("bytesBase64", .string (Base64.encode f.content.bytes)),
     ("stats", .object [("nodeCount", .ofNat nodeCount), ("boundingBox", box.toJson)])]

end Solids
