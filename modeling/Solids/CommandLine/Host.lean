/-!
# Solids.CommandLine.Host

**What the program needs of the system it runs on**: a standard input, files to read
and folders to write files to.

`Host m` names the services, so that the program is a definition that can be run on the
real system or on a value that holds folders and files. What is made of the services,
such as a folder together with those that contain it, is the same on both.
-/

namespace Solids

/-- Why the system does not do what it is asked to. -/
inductive HostError where
  /-- For a reason that the system has a number for. -/
  | system (reason : String) (code : Nat)
  /-- Bytes that should be text are not. -/
  | notText
  deriving DecidableEq, Repr

namespace HostError

/-- There is no such file or folder. -/
def missing : HostError := .system "No such file or directory" 2

/-- There is something already. -/
def alreadyThere : HostError := .system "File exists" 17

/-- Something on the way is no folder. -/
def notFolder : HostError := .system "Not a directory" 20

/-- It is a folder and should be a file. -/
def isFolder : HostError := .system "Is a directory" 21

/-- A name is too long. -/
def nameTooLong : HostError := .system "File name too long" 36

/-- The error with a number, for which a system has given a reason in its own words. -/
def numbered (code : Nat) (reason : String) : HostError :=
  match code with
  | 1 => .system "Operation not permitted" code
  | 2 => missing
  | 5 => .system "Input/output error" code
  | 13 => .system "Permission denied" code
  | 17 => alreadyThere
  | 20 => notFolder
  | 21 => isFolder
  | 22 => .system "Invalid argument" code
  | 27 => .system "File too large" code
  | 28 => .system "No space left on device" code
  | 30 => .system "Read-only file system" code
  | 36 => nameTooLong
  | 40 => .system "Too many levels of symbolic links" code
  | _ => .system reason code

/-- The text of an error. -/
def message : HostError → String
  | .system reason code => reason ++ " (os error " ++ toString code ++ ")"
  | .notText => "stream did not contain valid UTF-8"

end HostError

/-- The services of a system. -/
structure Host (m : Type → Type) where
  /-- All of standard input. -/
  readInput : m (Except HostError String)
  /-- The text of a file. -/
  readFile : String → m (Except HostError String)
  /-- Makes a folder where nothing may be yet. -/
  createFolder : String → m (Except HostError Unit)
  /-- There is a folder at a path. -/
  isFolder : String → m Bool
  /-- Writes a file. -/
  writeFile : String → List UInt8 → m (Except HostError Unit)

namespace Host

/-- Bytes as text. -/
def decodeText (bytes : List UInt8) : Except HostError String :=
  match String.fromUTF8? ⟨bytes.toArray⟩ with
  | some text => .ok text
  | none => .error .notText

@[simp] theorem decodeText_toUTF8 (text : String) :
    decodeText text.toUTF8.data.toList = .ok text := by
  have h : String.fromUTF8? text.toUTF8 = some text := dif_pos text.isValidUTF8
  rw [decodeText, Array.toArray_toList, h]

/-- The names in the text of a path. -/
def namesOf (path : String) : List String := (path.toList.splitOn '/').map String.ofList

/-- The names on the way to the folder that contains the one at a path, the last name
first. Names that lead nowhere do not count, except at the beginning. -/
def parentNames (path : String) : List String :=
  match namesOf path with
  | [] => []
  | first :: rest => (first :: rest.filter fun name => name ≠ "" ∧ name ≠ ".").reverse.drop 1

variable {m : Type → Type} [Monad m] (host : Host m)

/-- Makes a folder unless it is there. -/
def ensureFolder (path : String) : m (Except HostError Unit) := do
  match ← host.createFolder path with
  | .ok () => return .ok ()
  | .error e => if ← host.isFolder path then return .ok () else return .error e

/-- Makes a folder. If one that contains it is not there, that is made first: its path
has the given names, the last name first. -/
def createFoldersWithin (path : String) : List String → m (Except HostError Unit)
  | [] => host.ensureFolder path
  | name :: rest => do
    match ← host.ensureFolder path with
    | .ok () => return .ok ()
    | .error e =>
      if e = .missing then
        match ← createFoldersWithin (String.intercalate "/" (name :: rest).reverse) rest with
        | .ok () => host.ensureFolder path
        | .error e => return .error e
      else return .error e

/-- Makes a folder and those that contain it, unless they are there. -/
def createFolders (path : String) : m (Except HostError Unit) :=
  if path.isEmpty then return .ok () else host.createFoldersWithin path (parentNames path)

end Host

end Solids
