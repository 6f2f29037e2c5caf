import Solids.CommandLine.Arguments
import Solids.CommandLine.Help
import Solids.CommandLine.Host
import Solids.Export
import Solids.Recipe.Validation
/-!
# Solids.CommandLine

**The program**: reads a recipe, makes its solid, and prints its statistics or writes
it as a file.

Everything that can be refused is refused before the first folder is made: reading,
validation, making the solid and formatting the file all come before writing.
-/

namespace Solids.CommandLine

/-- What a run of the program leaves behind, apart from files. -/
structure Outcome where
  /-- The code it exits with. -/
  exitCode : UInt32
  /-- What it printed. -/
  stdout : String := ""
  /-- What it complained about. -/
  stderr : String := ""

/-! ### Failures -/

/-- Why a run fails. -/
inductive Failure where
  /-- The recipe could not be read. -/
  | unreadable (input : String) (cause : HostError)
  /-- There is no solid for the recipe. -/
  | refused (error : RecipeError Double)
  /-- The modeller did not come to an end. -/
  | unending
  /-- The folder for the file could not be made. -/
  | noFolder (folder : String) (cause : HostError)
  /-- The file could not be written. -/
  | unwritten (path : String) (cause : HostError)

namespace Failure

/-- The text of a failure. -/
def text : Failure → String
  | .unreadable input _ =>
    if input = "-" then "failed to read recipe from stdin" else "failed to read " ++ input
  | .refused error => error.message
  | .unending => "the solid could not be computed"
  | .noFolder folder _ => "failed to create " ++ folder
  | .unwritten path _ => "failed to write " ++ path

/-- The text of what is behind a failure. -/
def cause? : Failure → Option String
  | .unreadable _ cause => some cause.message
  | .refused (.compile error) => some error.source.message
  | .refused _ => none
  | .unending => none
  | .noFolder _ cause => some cause.message
  | .unwritten _ cause => some cause.message

/-- The outcome of a failure. -/
def outcome (f : Failure) : Outcome :=
  let cause := match f.cause? with
    | some cause => "\nCaused by:\n    " ++ cause ++ "\n"
    | none => ""
  { exitCode := 1, stderr := "Error: " ++ f.text ++ "\n" ++ cause }

end Failure

/-! ### From a text to a file -/

/-- The mesh of a recipe. -/
def meshOf (options : CompileOptions) (recipe : Recipe Double) :
    Except Failure (Compiled Double (Mesh Double)) :=
  match (recipe.compile (Kernel.mesh Settings.default) options).run with
  | none => .error .unending
  | some (.error e) => .error (.refused e)
  | some (.ok compiled) => .ok compiled

/-- The recipe that a text is, and its mesh. -/
def solidOf (options : CompileOptions) (text : String) :
    Except Failure (Recipe Double × Compiled Double (Mesh Double)) := do
  let recipe ← (Recipe.ofText text).mapError fun e => .refused (.validation e)
  let compiled ← meshOf options recipe
  return (recipe, compiled)

/-- The statistics of a solid. -/
def statistics (recipe : Recipe Double) (compiled : Compiled Double (Mesh Double)) : Json :=
  .object
    [("name", match recipe.name with
      | some name => .string name
      | none => .null),
     ("units", .string recipe.units.name),
     ("nodeCount", .ofNat compiled.nodeCount),
     ("boundingBox", compiled.boundingBox.toJson),
     ("polygons", .ofNat compiled.geometry.polygons.length)]

/-- What a command is to do with a solid. -/
inductive Task where
  /-- Print a text. -/
  | print (text : String)
  /-- Write a file into a folder. -/
  | write (folder : String) (file : ModelFile)

/-- What a command is to do with a recipe. -/
def taskOf (options : CompileOptions) (text : String) : Command → Except Failure Task
  | .check => do
    let (recipe, compiled) ← solidOf options text
    return .print ((statistics recipe compiled).pretty ++ "\n")
  | .export format out json => do
    let (recipe, compiled) ← solidOf options text
    let file := ModelFile.ofMesh compiled.geometry format recipe.name
    if json then
      return .print ((file.envelope compiled.nodeCount compiled.boundingBox).pretty ++ "\n")
    else return .write out file

/-- The path of a file in a folder. An empty path is that of the folder in which the program
runs. -/
def pathIn (folder name : String) : String :=
  if folder = "" ∨ folder.endsWith "/" then folder ++ name else folder ++ "/" ++ name

/-! ### Running -/

variable {m : Type → Type} [Monad m]

/-- The text of the recipe. -/
def readRecipe (host : Host m) (input : String) : m (Except Failure String) :=
  Except.mapError (.unreadable input) <$>
    (if input = "-" then host.readInput else host.readFile input)

/-- Does what is to be done with a solid. -/
def perform (host : Host m) : Task → m (Except Failure String)
  | .print text => return .ok text
  | .write folder file => do
    match ← host.createFolders folder with
    | .error e => return .error (.noFolder folder e)
    | .ok () =>
      let path := pathIn folder file.name
      match ← host.writeFile path file.content.bytes with
      | .error e => return .error (.unwritten path e)
      | .ok () => return .ok (path ++ "\n")

/-- Runs a command. The answer is what it prints. -/
def execute (host : Host m) (i : Invocation) : m (Except Failure String) := do
  match ← readRecipe host i.input with
  | .error e => return .error e
  | .ok text =>
    match taskOf i.options text i.command with
    | .error e => return .error e
    | .ok task => perform host task

/-- The version of the program. -/
def versionText : String := "csg-recipe 0.1.0\n"

/-- The outcome of arguments that leave nothing to run. -/
def Stop.outcome (env : Environment) : Stop → Outcome
  | .misuse => { exitCode := 2, stderr := printed env (usage .program ++ "\n") }
  | .help level => { exitCode := 0, stdout := printed env (helpText env level) }
  | .version => { exitCode := 0, stdout := versionText }

/-- Runs the program. -/
def run (host : Host m) (env : Environment) (args : List String) : m Outcome := do
  match Invocation.ofArguments env args with
  | .error stop => return stop.outcome env
  | .ok i =>
    match ← execute host i with
    | .ok text => return { exitCode := 0, stdout := text }
    | .error failure => return failure.outcome

end Solids.CommandLine
