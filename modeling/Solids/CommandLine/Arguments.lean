import Solids.Export.FileFormat
import Solids.Recipe.Pipeline
/-!
# Solids.CommandLine.Arguments

**The arguments of the program.** They are read from left to right, first those of the
program itself up to the name of a command, then those of the command. The first one
that does not fit ends it, and so does a request for help or for the version.

Design points:

* The settings that limit recipes may stand on either side of the name of the command.
  What stands after it wins.
* A setting may be given once on either side. Where it is not given it is taken from
  the environment, and what is there must be fit for it, even if the setting is given on
  the other side and wins.
* A value of its own just before the name of a command is looked at last. Help for the
  command is thus given even if that value is not fit.
-/

namespace Solids.CommandLine

/-! ### Settings -/

/-- Something that an argument with a name sets. -/
inductive Setting where
  /-- The largest number of nodes. -/
  | maxNodes
  /-- The largest number of segments. -/
  | maxSegments
  /-- Lengths are converted to millimeters. -/
  | scaleUnits
  /-- The format of the file. -/
  | format
  /-- The folder for the file. -/
  | out
  /-- JSON is printed instead of a file written. -/
  | json
  deriving DecidableEq, Repr

namespace Setting

/-- The name of a setting. -/
def name : Setting → String
  | .maxNodes => "max-nodes"
  | .maxSegments => "max-segments"
  | .scaleUnits => "scale-units"
  | .format => "format"
  | .out => "out"
  | .json => "json"

/-- A setting with a value, which the others, that are on or off, do not have. -/
def takesValue : Setting → Bool
  | .maxNodes | .maxSegments | .format | .out => true
  | .scaleUnits | .json => false

/-- The variable of the environment that stands in for a setting. -/
def envName? : Setting → Option String
  | .maxNodes => some "CSG_RECIPE_MAX_NODES"
  | .maxSegments => some "CSG_RECIPE_MAX_SEGMENTS"
  | .scaleUnits => some "CSG_RECIPE_SCALE_UNITS"
  | _ => none

/-- The settings that limit recipes. -/
def limits : List Setting := [.maxNodes, .maxSegments, .scaleUnits]

end Setting

/-- Whose arguments are read. -/
inductive Level where
  /-- Those of the program. -/
  | program
  /-- Those of the command that prints statistics. -/
  | check
  /-- Those of the command that writes a file. -/
  | export
  /-- Those of the command that explains the others. -/
  | help
  deriving DecidableEq, Repr

/-- The settings that may be given. -/
def Level.settings : Level → List Setting
  | .program => Setting.limits
  | .check => Setting.limits
  | .export => [.format, .out, .json] ++ Setting.limits
  | .help => []

/-- What has been set. -/
structure Values where
  /-- The largest number of nodes. -/
  maxNodes : Option Nat := none
  /-- The largest number of segments. -/
  maxSegments : Option UInt32 := none
  /-- Lengths are converted, or are not. -/
  scaleUnits : Option Bool := none
  /-- The format of the file. -/
  format : Option FileFormat := none
  /-- The folder for the file. -/
  out : Option String := none
  /-- JSON is printed. -/
  json : Bool := false
  deriving Repr

/-! ### Values -/

/-- The number that decimal digits stand for. There must be at least one. -/
def natural? (digits : List Char) : Option Nat :=
  if digits.isEmpty || !digits.all Char.isDigit then none
  else some (digits.foldl (fun n c => 10 * n + (c.toNat - '0'.toNat)) 0)

/-- A count of 64 bits. A plus sign may stand in front of it. -/
def count? (text : String) : Option Nat :=
  let n := match text.toList with
    | '+' :: digits => natural? digits
    | digits => natural? digits
  n.filter (· < Nat.pow 2 64)

/-- A count of 32 bits. A sign may stand in front of it; zero may be negative. -/
def segments? (text : String) : Option UInt32 :=
  let n := match text.toList with
    | '+' :: digits => natural? digits
    | '-' :: digits => (natural? digits).filter (· = 0)
    | digits => natural? digits
  (n.filter (· < Nat.pow 2 32)).map Nat.toUInt32

/-- A truth value. -/
def truth? (text : String) : Option Bool :=
  if text = "true" then some true else if text = "false" then some false else none

/-- The values with one more from a text, if the text is fit for it. -/
def Values.set (vs : Values) (text : String) : Setting → Option Values
  | .maxNodes => (count? text).map fun n => { vs with maxNodes := some n }
  | .maxSegments => (segments? text).map fun n => { vs with maxSegments := some n }
  | .scaleUnits => (truth? text).map fun b => { vs with scaleUnits := some b }
  | .format => (FileFormat.ofName? text).map fun f => { vs with format := some f }
  | .out => if text.isEmpty then none else some { vs with out := some text }
  | .json => (truth? text).map fun b => { vs with json := b }

/-- A setting has a value. -/
def Values.has (vs : Values) : Setting → Bool
  | .maxNodes => vs.maxNodes.isSome
  | .maxSegments => vs.maxSegments.isSome
  | .scaleUnits => vs.scaleUnits.isSome
  | .format => vs.format.isSome
  | .out => vs.out.isSome
  | .json => vs.json

/-! ### Reading arguments -/

/-- Why there is nothing to run. -/
inductive Stop where
  /-- The arguments do not fit. -/
  | misuse
  /-- Help is asked for. -/
  | help (level : Level)
  /-- The version is asked for. -/
  | version
  deriving DecidableEq, Repr

/-- What an argument looks like. -/
inductive Token where
  /-- Two hyphens: all others are words. -/
  | separator
  /-- A name after two hyphens, perhaps with a value after an equals sign. -/
  | long (name : String) (value : Option String)
  /-- A letter after a hyphen; what follows it does not count. -/
  | short (letter : Char)
  /-- Anything else, a lone hyphen included. -/
  | word
  deriving DecidableEq, Repr

/-- What an argument looks like. -/
def Token.ofText (text : String) : Token :=
  match text.toList with
  | ['-', '-'] => .separator
  | '-' :: '-' :: rest =>
    let name := String.ofList (rest.takeWhile (· ≠ '='))
    match rest.dropWhile (· ≠ '=') with
    | _ :: value => .long name (some (String.ofList value))
    | [] => .long name none
  | '-' :: letter :: _ => .short letter
  | _ => .word

/-- What a letter asks for. Only the program has a version. -/
def stopOfLetter (level : Level) (letter : Char) : Stop :=
  if letter = 'h' then .help level
  else if letter = 'V' ∧ level = .program then .version
  else .misuse

/-- What a name asks for that is not the name of a setting. -/
def stopOfName (level : Level) (name : String) (value : Option String) : Stop :=
  if value.isSome then .misuse
  else if name = "help" then .help level
  else if name = "version" ∧ level = .program then .version
  else .misuse

/-- What was read. -/
structure Found where
  /-- What was set. -/
  values : Values := {}
  /-- A setting with a value that is not looked at yet. -/
  late : Option (Setting × String) := none
  /-- The word: a command, or the input of one. -/
  word : Option String := none
  /-- The arguments after the name of a command. -/
  rest : List String := []

/-- Sets a value once. -/
def Found.set (found : Found) (setting : Setting) (text : String) : Except Stop Found :=
  if found.values.has setting then .error .misuse
  else
    match found.values.set text setting with
    | some values => .ok { found with values }
    | none => .error .misuse

/-- Looks at the value that was left for later. -/
def Found.settle (found : Found) : Except Stop Found :=
  match found.late with
  | some (setting, text) => { found with late := none }.set setting text
  | none => .ok found

/-- Takes the value of a setting, or leaves it for later if a word comes next that can be
the name of a command. -/
def Found.setBefore (found : Found) (level : Level) (rest : List String) (setting : Setting)
    (text : String) : Except Stop Found :=
  if level = .program ∧ rest.head?.map Token.ofText = some .word then
    .ok { found with late := some (setting, text) }
  else found.set setting text

/-- Takes a word as the input of a command, which has one. -/
def Found.take (found : Found) (word : String) : Except Stop Found :=
  match found.word with
  | some _ => .error .misuse
  | none => .ok { found with word := some word }

/-- Reads the arguments after two hyphens. -/
def Found.takeAll (found : Found) (level : Level) : List String → Except Stop Found
  | [] => .ok found
  | word :: rest =>
    if level = .program then .error .misuse
    else do
      let found ← found.take word
      found.takeAll level rest

/-- Reads arguments. -/
def scan (level : Level) (found : Found) : List String → Except Stop Found
  | [] => .ok found
  | arg :: rest =>
    match Token.ofText arg with
    | .separator => found.takeAll level rest
    | .short letter => .error (stopOfLetter level letter)
    | .word =>
      if level = .program then .ok { found with word := some arg, rest }
      else do
        let found ← found.take arg
        scan level found rest
    | .long name value =>
      match level.settings.find? fun s => s.name = name with
      | none => .error (stopOfName level name value)
      | some setting =>
        if setting.takesValue then
          match value, rest with
          | some value, rest => do
            let found ← found.set setting value
            scan level found rest
          | none, value :: rest =>
            if Token.ofText value = .word then do
              let found ← found.setBefore level rest setting value
              scan level found rest
            else .error .misuse
          | none, [] => .error .misuse
        else if value.isSome then .error .misuse
        else do
          let found ← found.set setting "true"
          scan level found rest

/-! ### The environment -/

/-- Variables with their values. -/
abbrev Environment : Type := List (String × String)

/-- Takes a setting that is not given from the environment. -/
def Values.fillOne (env : Environment) (vs : Values) (setting : Setting) : Except Stop Values :=
  if vs.has setting then .ok vs
  else
    match setting.envName?.bind (env.lookup ·) with
    | none => .ok vs
    | some text =>
      match vs.set text setting with
      | some vs => .ok vs
      | none => .error .misuse

/-- Takes the limits that are not given from the environment. -/
def Values.fill (env : Environment) (vs : Values) : Except Stop Values :=
  Setting.limits.foldlM (Values.fillOne env) vs

/-! ### What to run -/

/-- A command. -/
inductive Command where
  /-- Print statistics. -/
  | check
  /-- Write a file into a folder, or print it in JSON. -/
  | export (format : FileFormat) (out : String) (json : Bool)
  deriving DecidableEq, Repr

/-- What to run. -/
structure Invocation where
  /-- The limits. -/
  options : CompileOptions
  /-- The file of the recipe, or a hyphen for standard input. -/
  input : String
  /-- The command. -/
  command : Command

/-- The limits given after the name of the command, or else before it. -/
def optionsOf (outer inner : Values) : CompileOptions :=
  let defaults : CompileOptions := {}
  { maxNodes := (inner.maxNodes <|> outer.maxNodes).getD defaults.maxNodes
    maxSegments := inner.maxSegments <|> outer.maxSegments
    units :=
      if (inner.scaleUnits <|> outer.scaleUnits).getD false then .toMillimeters else .asWritten }

/-- Reads the arguments of a command. `outer` was found before its name, and takes from
the environment what neither side gives. -/
def invocationOf (env : Environment) (level : Level) (outer : Found) (args : List String) :
    Except Stop Invocation := do
  let found ← scan level {} args
  let inner := found.values
  let _ ← inner.fill env
  let outer ← (← outer.settle).values.fill env
  match found.word with
  | none => .error .misuse
  | some input =>
    return {
      options := optionsOf outer inner
      input
      command :=
        if level = .export then
          .export (inner.format.getD .stl) (inner.out.getD ".") inner.json
        else .check }

/-- The level of a command. -/
def Level.ofCommand? (name : String) : Option Level :=
  if name = "check" then some .check
  else if name = "export" then some .export
  else if name = "help" then some .help
  else none

/-- What the command for help is to explain. -/
def helpTopic : List String → Stop
  | [] => .help .program
  | [name] =>
    match Level.ofCommand? name with
    | some level => .help level
    | none => .misuse
  | _ => .misuse

/-- What to run. -/
def Invocation.ofArguments (env : Environment) (args : List String) : Except Stop Invocation := do
  let found ← scan .program {} args
  match found.word.bind Level.ofCommand? with
  | none => .error .misuse
  | some .help => .error (helpTopic found.rest)
  | some level => invocationOf env level found found.rest

end Solids.CommandLine
