import Solids.CommandLine.Host
/-!
# Solids.CommandLine.FileSystem

**File systems as values**, on which the program runs like on a real one.

Main definitions:

* `Place` — a folder on the way along a path, with the folders around it;
* `FileSystem.locate` — where a path leads;
* `FileSystem.read`, `FileSystem.write`, `FileSystem.createFolder` — the services;
* `FileSystem.host` — all of them together, as a `Host`.

Design points:

* The texts of paths are taken apart at slashes and followed name by name. Empty names
  and single dots stay where they are, two dots lead out of a folder.
* The folder in which the program runs is in the root under the name of a single dot, a
  name to which no path leads.
* A path is looked at as a whole before it is followed: too long a path is refused
  whatever is there.
-/

namespace Solids

/-- What has a name in a folder. -/
inductive Entry where
  /-- A file with these bytes. -/
  | file (bytes : List UInt8)
  /-- A folder with what is in it. -/
  | folder (contents : List (String × Entry))

/-- What is in a folder. -/
abbrev Folder : Type := List (String × Entry)

namespace Folder

/-- The folder with an entry under a name; what was there gives way. -/
def put (f : Folder) (name : String) (e : Entry) : Folder :=
  (name, e) :: f.filter fun old => old.1 != name

/-- The folder of that name in a folder, or an empty one. -/
def inner (f : Folder) (name : String) : Folder :=
  match f.lookup name with
  | some (.folder contents) => contents
  | _ => []

/-- The folder with an entry at the end of some names. Folders on the way are made. -/
def putAt (f : Folder) (e : Entry) : List String → Folder
  | [] => f
  | [name] => f.put name e
  | name :: rest => f.put name (.folder ((f.inner name).putAt e rest))

@[simp] theorem lookup_put_self (f : Folder) (name : String) (e : Entry) :
    (f.put name e).lookup name = some e := by
  simp [put]

end Folder

mutual

/-- The files at a path and below it, with their paths. -/
def Entry.filesAt (path : String) : Entry → List (String × List UInt8)
  | .file bytes => [(path, bytes)]
  | .folder contents => filesIn (path ++ "/") contents

/-- The files of a folder, with their paths, which begin with `start`. -/
def filesIn (start : String) : List (String × Entry) → List (String × List UInt8)
  | [] => []
  | (name, e) :: rest => e.filesAt (start ++ name) ++ filesIn start rest

end

/-! ### Places -/

/-- A folder, and its way out: the name it has in the folder that contains it and what
else that holds, and so on up to the root. -/
structure Place where
  /-- What is in the folder. -/
  contents : Folder
  /-- The folders that contain it, the innermost one first. -/
  above : List (String × Folder) := []

namespace Place

/-- The most bytes that a name may have. -/
def nameLimit : Nat := 255

/-- The folder that contains the one at a place. The root contains itself. -/
def leave (p : Place) : Place :=
  match p.above with
  | [] => p
  | (_, contents) :: above => { contents, above }

/-- What a name means at a place. -/
def entry? (p : Place) (name : String) : Option Entry :=
  if name = "" ∨ name = "." then some (.folder p.contents)
  else if name = ".." then some (.folder p.leave.contents)
  else p.contents.lookup name

/-- A name must not be too long. -/
def checkName (name : String) : Except HostError Unit :=
  if nameLimit < name.utf8ByteSize then .error .nameTooLong else .ok ()

/-- The place to which a name leads, which must be the name of a folder. -/
def enter (p : Place) (name : String) : Except HostError Place := do
  checkName name
  if name = "" ∨ name = "." then return p
  else if name = ".." then return p.leave
  else
    match p.contents.lookup name with
    | some (.folder contents) => return { contents, above := (name, p.contents) :: p.above }
    | some (.file _) => .error .notFolder
    | none => .error .missing

/-- The root with the folder at a place in it, if that has these contents and these
folders contain it. -/
def rootFrom (contents : Folder) : List (String × Folder) → Folder
  | [] => contents
  | (name, outer) :: above => rootFrom (outer.put name (.folder contents)) above

/-- The root once an entry has been put at a place under a name. -/
def rootWith (p : Place) (name : String) (e : Entry) : Folder :=
  rootFrom (p.contents.put name e) p.above

end Place

/-! ### File systems -/

/-- A file system, and what is on standard input. -/
structure FileSystem where
  /-- What is in the root. -/
  root : Folder
  /-- The bytes on standard input. -/
  input : List UInt8 := []

namespace FileSystem

export Host (decodeText)

/-- The name of the folder in which the program runs. -/
def workingName : String := "."

/-- What is in the folder in which the program runs. -/
def working (fs : FileSystem) : Folder := fs.root.inner workingName

/-- The most bytes that a path may have. -/
def pathLimit : Nat := 4095

/-- Where the way along a path begins: at the root if the path begins with a slash. -/
def startOf (fs : FileSystem) (path : String) : Place :=
  if path.startsWith "/" then { contents := fs.root }
  else { contents := fs.working, above := [(workingName, fs.root)] }

/-- A path must not be empty or too long. -/
def checkPath (path : String) : Except HostError Unit :=
  if path.isEmpty then .error .missing
  else if pathLimit < path.utf8ByteSize then .error .nameTooLong
  else .ok ()

/-- The place at which the last name of a path is to be looked up, and that name. All
other names must be those of folders. -/
def locate (fs : FileSystem) (path : String) : Except HostError (Place × String) := do
  checkPath path
  let names := Host.namesOf path
  let last := names.getLastD ""
  let place ← names.dropLast.foldlM Place.enter (fs.startOf path)
  Place.checkName last
  return (place, last)

/-- The bytes of a file. -/
def read (fs : FileSystem) (path : String) : Except HostError (List UInt8) := do
  let (place, name) ← fs.locate path
  match place.entry? name with
  | some (.file bytes) => return bytes
  | some (.folder _) => .error .isFolder
  | none => .error .missing

/-- The file system with a file written. -/
def write (fs : FileSystem) (path : String) (bytes : List UInt8) :
    Except HostError FileSystem := do
  let (place, name) ← fs.locate path
  match place.entry? name with
  | some (.folder _) => .error .isFolder
  | _ => return { fs with root := place.rootWith name (.file bytes) }

/-- The path without the slashes at its end. -/
def withoutEndingSlashes (path : String) : String :=
  String.ofList (path.toList.reverse.dropWhile (· = '/')).reverse

/-- The file system with one more folder, where nothing may be yet. -/
def createFolder (fs : FileSystem) (path : String) : Except HostError FileSystem := do
  checkPath path
  let (place, name) ← fs.locate (withoutEndingSlashes path)
  match place.entry? name with
  | some _ => .error .alreadyThere
  | none => return { fs with root := place.rootWith name (.folder []) }

/-- There is a folder at a path. -/
def isFolder (fs : FileSystem) (path : String) : Bool :=
  match fs.locate path with
  | .ok (place, name) =>
    match place.entry? name with
    | some (.folder _) => true
    | _ => false
  | .error _ => false

/-- A file system whose working folder holds these files, with a text on standard input. -/
def ofFiles (files : List (String × List UInt8)) (input : String) : FileSystem :=
  let working : Folder :=
    files.foldl (fun folder (path, bytes) => folder.putAt (.file bytes) (Host.namesOf path)) []
  { root := [(workingName, .folder working)], input := input.toUTF8.data.toList }

/-- The files in and below the working folder, with their paths. -/
def files (fs : FileSystem) : List (String × List UInt8) := filesIn "" fs.working

/-- Changes the file system, unless that fails. -/
def change (next : FileSystem → Except HostError FileSystem) :
    StateM FileSystem (Except HostError Unit) := do
  match next (← get) with
  | .ok fs =>
    set fs
    return .ok ()
  | .error e => return .error e

/-- The services of a file system. -/
def host : Host (StateM FileSystem) where
  readInput := return decodeText (← get).input
  readFile path := return ((← get).read path).bind decodeText
  createFolder path := change (·.createFolder path)
  isFolder path := return (← get).isFolder path
  writeFile path bytes := change (·.write path bytes)

end FileSystem

end Solids
