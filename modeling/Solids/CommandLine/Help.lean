import Solids.CommandLine.Arguments
import Solids.CommandLine.Terminal
/-!
# Solids.CommandLine.Help

**The help texts of the program.** The limits are explained with the variables that
stand in for them and what these hold now.

Headings and what has to be typed as it stands are set off. Unless the environment asks
for that, a help text is printed without escape sequences, and thus also without those
that a variable holds.
-/

namespace Solids.CommandLine

open Terminal

/-- What the program does. -/
def about : Level → String
  | .program => "Compile JSON shape recipes into solid meshes"
  | .check => "validate and compile a recipe, then print its statistics"
  | .export => "compile a recipe and write it as a mesh file"
  | .help => "Print this message or the help of the given subcommand(s)"

/-- What calls the program, and a command of it. -/
def Level.call : Level → String
  | .program => "csg-recipe"
  | .check => "csg-recipe check"
  | .export => "csg-recipe export"
  | .help => "csg-recipe help"

/-- What may follow a call. -/
def Level.pattern : Level → String
  | .program => "[OPTIONS] <COMMAND>"
  | .check | .export => "[OPTIONS] <INPUT>"
  | .help => "[COMMAND]..."

/-- How the program is called. -/
def usage (level : Level) : String :=
  Emphasis.heading.apply "Usage:" ++ " " ++ Emphasis.strong.apply level.call ++ " "
    ++ level.pattern

/-- What stands in the place of a value. -/
def Setting.placeholder : Setting → String
  | .maxNodes => " <MAX_NODES>"
  | .maxSegments => " <MAX_SEGMENTS>"
  | .format => " <FORMAT>"
  | .out => " <OUT>"
  | .scaleUnits | .json => ""

/-- What a setting does. -/
def Setting.explanation : Setting → String
  | .maxNodes => "refuse recipes with more nodes than this"
  | .maxSegments => "refuse spheres and cylinders requesting more segments than this"
  | .scaleUnits => "scale coordinates from the recipe's `units` to millimeters"
  | .format => ""
  | .out => "directory the file is written to"
  | .json => "print a JSON envelope with base64 contents instead of writing a file"

/-- The value of a setting that is not given. -/
def Setting.default? : Setting → Option String
  | .maxNodes => some "500"
  | .format => some "stl"
  | .out => some "."
  | _ => none

/-- The remarks in brackets after an explanation. -/
def Setting.remarks (env : Environment) (s : Setting) : List String :=
  let current := s.envName?.map fun v => "[env: " ++ v ++ "=" ++ (env.lookup v).getD "" ++ "]"
  let standard := s.default?.map fun v => "[default: " ++ v ++ "]"
  current.toList ++ standard.toList

/-! ### Tables -/

/-- A row of a table of explanations: what is explained, and the explanation. -/
abbrev Row : Type := String × String

/-- A text with this many spaces after each of its line breaks. -/
def indentFurtherLines (indent : Nat) (text : String) : String :=
  String.intercalate ("\n" ++ String.ofList (List.replicate indent ' ')) (text.splitOn "\n")

/-- The lines of a table. The explanations stand below each other, two spaces to the
right of the widest thing that is explained. -/
def tableLines (rows : List Row) : List String :=
  let widest := rows.foldl (fun widest row => max widest (width row.1)) 0
  rows.map fun (left, right) =>
    "  " ++ left ++ String.ofList (List.replicate (widest - width left) ' ') ++ "  "
      ++ indentFurtherLines (widest + 4) right

/-- The row of a setting. A setting has no letter, and the place of one stays empty. -/
def settingRow (env : Environment) (s : Setting) : Row :=
  let texts := (if s.explanation.isEmpty then [] else [s.explanation]) ++ s.remarks env
  ("    " ++ Emphasis.strong.apply ("--" ++ s.name) ++ s.placeholder,
   String.intercalate " " texts)

/-- The settings in the order in which they are explained. -/
def Level.explained : Level → List Setting
  | .program => Setting.limits
  | .check => Setting.limits
  | .export => [.format, .maxNodes, .maxSegments, .out, .json, .scaleUnits]
  | .help => []

/-- The row of a request, which has a letter and a name. -/
def requestRow (letter name explanation : String) : Row :=
  (Emphasis.strong.apply ("-" ++ letter) ++ ", " ++ Emphasis.strong.apply ("--" ++ name),
   explanation)

/-- The rows of the requests that a level has. -/
def Level.requestRows : Level → List Row
  | .program => [requestRow "h" "help" "Print help", requestRow "V" "version" "Print version"]
  | .check | .export => [requestRow "h" "help" "Print help"]
  | .help => []

/-- The rows of all that may be given by name. -/
def Level.optionRows (env : Environment) (level : Level) : List Row :=
  level.explained.map (settingRow env) ++ level.requestRows

/-- The row of a command. -/
def commandRow (name : String) (level : Level) : Row := (Emphasis.strong.apply name, about level)

/-- The heading and the rows for what is not a setting. -/
def Level.operands : Level → String × List Row
  | .program =>
    ("Commands:",
      [commandRow "check" .check, commandRow "export" .export, commandRow "help" .help])
  | .check | .export => ("Arguments:", [("<INPUT>", "recipe file, or `-` for stdin")])
  | .help => ("Arguments:", [("[COMMAND]...", "Print help for the subcommand(s)")])

/-- A table with a heading, below an empty line. A table without rows is left out. -/
def sectionLines (heading : String) (rows : List Row) : List String :=
  if rows.isEmpty then [] else ["", Emphasis.heading.apply heading] ++ tableLines rows

/-- The help text of a level. -/
def helpText (env : Environment) (level : Level) : String :=
  let (heading, operands) := level.operands
  let lines := [about level, "", usage level] ++ sectionLines heading operands
    ++ sectionLines "Options:" (level.optionRows env)
  String.join (lines.map (· ++ "\n"))

/-! ### Printing -/

/-- The variable that asks for no emphasis at all, whatever else asks for it. -/
def plainVariable : String := "NO_COLOR"

/-- The variable that asks for emphasis. -/
def emphasisVariable : String := "CLICOLOR_FORCE"

/-- A variable holds something. -/
def Environment.holds (env : Environment) (name : String) : Bool :=
  (env.lookup name).any (· ≠ "")

/-- A text as it is printed. -/
def printed (env : Environment) (text : String) : String :=
  if !env.holds plainVariable && env.holds emphasisVariable then text
  else withoutSequences text

/-- The variables that the program looks at. -/
def readVariables : List String :=
  Setting.limits.filterMap Setting.envName? ++ [plainVariable, emphasisVariable]

end Solids.CommandLine
