import Mathlib
import Solids.CommandLine
import Solids.CommandLine.FileSystem
import Solids.Proofs.Steps
/-!
# Solids.Proofs.SafeFileName

**The names of the files that are written.** A safe name is made from any name, and from none. A
file with that name and the ending of a format stands in the folder that it is written to: its name
leads to no other folder.

Main definitions:

* `SafeName.AreRuns` — text cut between the characters that are kept and those that are not;
* `IsFileName` — a name that is one step on a path, and no step to a folder;
* `FileSystem.follow` — where the path of a folder leads.

Main statements:

* `SafeName.replaceRuns_flatten` — an underscore for a run, however long it is;
* `IsFileName.write_pathIn_iff` — when such a file can be written, and what is written then;
* `ModelFile.stands_in_folder` — safe names and the files under them.
-/

namespace Solids

/-! ### Runs of characters -/

namespace SafeName

variable {inRun : Bool} {run cs : List Char} {runs : List (List Char)}

theorem isSafe_iff (c : Char) : isSafe c = true ↔ 'a' ≤ c ∧ c ≤ 'z' ∨ 'A' ≤ c ∧ c ≤ 'Z' ∨
    '0' ≤ c ∧ c ≤ '9' ∨ c = '.' ∨ c = '_' ∨ c = '-' := by
  simp only [isSafe, Char.isAlphanum, Char.isAlpha, Char.isUpper, Char.isLower, Char.isDigit,
    Char.le_def, Bool.or_eq_true, Bool.and_eq_true, decide_eq_true_eq, ge_iff_le]
  grind

/-- Lists of characters that are the runs of a text: each has characters, which are all kept or all
not kept, and where one list ends and the next one begins this changes. -/
structure AreRuns (runs : List (List Char)) : Prop where
  /-- A run has characters. -/
  ne_nil : ∀ run ∈ runs, run ≠ []
  /-- The characters of a run are of one kind. -/
  uniform : ∀ run ∈ runs, (∀ c ∈ run, isSafe c = true) ∨ ∀ c ∈ run, isSafe c = false
  /-- No run goes on in the next one. -/
  maximal : runs.IsChain fun run next => ∃ hrun hnext,
    isSafe (run.getLast hrun) ≠ isSafe (next.head hnext)

/-- What is written for a run. -/
def replaceRun (run : List Char) : List Char := if run.all isSafe then run else ['_']

/-- Both characters are kept, or neither is. -/
def alike (c d : Char) : Bool := isSafe c == isSafe d

theorem isChain_alike_iff : run.IsChain (fun c d => alike c d) ↔
    (∀ c ∈ run, isSafe c = true) ∨ ∀ c ∈ run, isSafe c = false := by
  induction run with
  | nil => simp
  | cons c run ih =>
    rw [List.isChain_cons, ih]
    cases run
    · simp
    · simp [alike]
      grind

/-- A text has runs, and only one list of lists is that of its runs. -/
theorem areRuns_iff : AreRuns runs ↔ runs.flatten.splitBy alike = runs := by
  have hchange (run next : List Char) :
      (∃ hrun hnext, alike (run.getLast hrun) (next.head hnext) = false) ↔
        ∃ hrun hnext, isSafe (run.getLast hrun) ≠ isSafe (next.head hnext) := by
    simp [alike]
  simp only [List.splitBy_eq_iff, isChain_alike_iff, hchange, true_and]
  constructor
  · intro h
    exact ⟨fun hnil => h.ne_nil [] hnil rfl, h.uniform, h.maximal⟩
  · intro h
    obtain ⟨hnil, huniform, hmaximal⟩ := h
    exact ⟨fun run hrun => ne_of_mem_of_not_mem hrun hnil, huniform, hmaximal⟩

theorem areRuns_splitBy (cs : List Char) : AreRuns (cs.splitBy alike) := by
  rw [areRuns_iff, List.flatten_splitBy]

theorem AreRuns.eq_splitBy (h : AreRuns runs) (hcs : runs.flatten = cs) :
    runs = cs.splitBy alike := by
  rw [← hcs, areRuns_iff.mp h]

theorem AreRuns.tail (h : AreRuns (run :: runs)) : AreRuns runs :=
  ⟨fun other hother => h.ne_nil other (.tail _ hother),
    fun other hother => h.uniform other (.tail _ hother), h.maximal.tail⟩

/-! ### Replacing runs -/

theorem replaceRuns_append_of_safe (hne : run ≠ []) (h : ∀ c ∈ run, isSafe c = true)
    (rest : List Char) : replaceRuns inRun (run ++ rest) = run ++ replaceRuns false rest := by
  induction run generalizing inRun with
  | nil => exact absurd rfl hne
  | cons c run ih =>
    rw [List.forall_mem_cons] at h
    rcases eq_or_ne run [] with rfl | hrun
    · simp [replaceRuns, h.1]
    · simp [replaceRuns, h.1, ih hrun h.2]

theorem replaceRuns_eq_self (h : ∀ c ∈ cs, isSafe c = true) : replaceRuns inRun cs = cs := by
  rcases eq_or_ne cs [] with rfl | hne
  · rfl
  · have happend : replaceRuns inRun (cs ++ []) = cs ++ replaceRuns false [] :=
      replaceRuns_append_of_safe hne h []
    simpa [replaceRuns] using happend

/-- Nothing more is written within a run. -/
theorem replaceRuns_true_append (h : ∀ c ∈ run, isSafe c = false) (rest : List Char) :
    replaceRuns true (run ++ rest) = replaceRuns true rest := by
  induction run with
  | nil => rfl
  | cons c run ih =>
    rw [List.forall_mem_cons] at h
    simp [replaceRuns, h.1, ih h.2]

/-- What is kept is written whether or not a run came before it. -/
theorem replaceRuns_true_of_head (h : ∀ c ∈ cs.head?, isSafe c = true) :
    replaceRuns true cs = replaceRuns false cs := by
  cases cs with
  | nil => rfl
  | cons c cs => simp [replaceRuns, h c rfl]

/-- **An underscore for a run.** The runs of characters that are not kept are replaced one by one,
and the others stay where they are. -/
theorem replaceRuns_flatten (h : AreRuns runs) :
    replaceRuns false runs.flatten = runs.flatMap replaceRun := by
  induction runs with
  | nil => rfl
  | cons run runs ih =>
    have hne := h.ne_nil run List.mem_cons_self
    rw [List.flatten_cons, List.flatMap_cons, ← ih h.tail]
    rcases h.uniform run List.mem_cons_self with hsafe | hdropped
    · rw [replaceRuns_append_of_safe hne hsafe, replaceRun, if_pos (List.all_eq_true.mpr hsafe)]
    · obtain ⟨c, rest, rfl⟩ := List.exists_cons_of_ne_nil hne
      have hfirst := hdropped c List.mem_cons_self
      -- The next run is one that is kept, so it does not matter that a run came before it.
      have hnext : ∀ d ∈ runs.flatten.head?, isSafe d = true := by
        cases runs with
        | nil => simp
        | cons next runs =>
          obtain ⟨hrun, hnext, hchange⟩ := (List.isChain_cons_cons.mp h.maximal).1
          rw [hdropped _ (List.getLast_mem _)] at hchange
          obtain ⟨d, next, rfl⟩ := List.exists_cons_of_ne_nil hnext
          simpa using hchange.symm
      have hrest : replaceRuns true (rest ++ runs.flatten) = replaceRuns false runs.flatten := by
        rw [replaceRuns_true_append fun d hd => hdropped d (.tail _ hd),
          replaceRuns_true_of_head hnext]
      simp [replaceRuns, replaceRun, hfirst, hrest]

theorem replaceRuns_ne_nil (h : cs ≠ []) : replaceRuns false cs ≠ [] := by
  cases cs with
  | nil => exact absurd rfl h
  | cons c cs =>
    rw [replaceRuns]
    split <;> simp

/-! ### Safe names -/

theorem ofName_eq_of_ne {s : String} (h : s ≠ "") :
    ofName (some s) = String.ofList (replaceRuns false s.toList) :=
  if_neg (by simpa using h)

theorem ofName_ne_empty (name : Option String) : ofName name ≠ "" := by
  rcases name with - | s
  · decide
  · rcases eq_or_ne s "" with rfl | hs
    · decide
    · have hcs : s.toList ≠ [] := by simpa using hs
      rw [ofName_eq_of_ne hs]
      simpa using replaceRuns_ne_nil hcs

theorem all_isSafe_ofName (name : Option String) : (ofName name).toList.all isSafe = true := by
  rcases name with - | s
  · decide
  · rcases eq_or_ne s "" with rfl | hs
    · decide
    · rw [ofName_eq_of_ne hs, String.toList_ofList]
      exact all_isSafe_replaceRuns false s.toList

theorem isSafe_of_mem_ofName {name : Option String} {c : Char} (h : c ∈ (ofName name).toList) :
    isSafe c = true :=
  List.all_eq_true.mp (all_isSafe_ofName name) c h

/-- A safe name is the safe form of itself. -/
theorem ofName_ofName (name : Option String) : ofName (some (ofName name)) = ofName name := by
  rw [ofName_eq_of_ne (ofName_ne_empty name),
    replaceRuns_eq_self fun _ => isSafe_of_mem_ofName, String.ofList_toList]

end SafeName

/-! ### Names on a path -/

namespace Host

theorem namesOf_append_slash (folder name : String) :
    namesOf (folder ++ "/" ++ name) = namesOf folder ++ namesOf name := by
  simp [namesOf, List.splitOn_append_cons_self]

theorem namesOf_of_notMem {name : String} (h : '/' ∉ name.toList) : namesOf name = [name] := by
  simp [namesOf, List.splitOn_eq_singleton h]

theorem namesOf_empty : namesOf "" = [""] := rfl

end Host

/-- A name that is one step on a path, and no step to a folder whatever there is. -/
structure IsFileName (name : String) : Prop where
  /-- There is no slash in it. -/
  noSlash : '/' ∉ name.toList
  /-- It is a name. -/
  ne_empty : name ≠ ""
  /-- It does not mean the folder itself. -/
  ne_dot : name ≠ "."
  /-- It does not mean the folder around it. -/
  ne_dots : name ≠ ".."

/-- An empty name leads nowhere else. -/
theorem Place.enter_empty (place : Place) : place.enter "" = pure place := by
  simp [enter, checkName, pure, Except.pure, bind, Except.bind]

namespace FileSystem

/-- The place to which the path of a folder leads. The empty path is that of the working folder. -/
def follow (fs : FileSystem) (folder : String) : Except HostError Place :=
  (Host.namesOf folder).foldlM Place.enter (fs.startOf folder)

/-- A change that fails leaves everything as it was. -/
theorem run_change (next : FileSystem → Except HostError FileSystem) (fs : FileSystem) :
    (change next).run fs =
      match next fs with
      | .ok changed => (.ok (), changed)
      | .error e => (.error e, fs) := by
  change (match next fs with
    | .ok changed => (do set changed; return .ok () : StateM FileSystem (Except HostError Unit))
    | .error e => return .error e).run fs = _
  cases next fs <;> rfl

end FileSystem

open CommandLine (pathIn)

namespace IsFileName

variable {name folder : String} {fs : FileSystem}

/-- Either the folder ends where a name would begin, or a slash comes between. -/
theorem pathIn_cases (folder name : String) :
    folder = "" ∧ pathIn folder name = name ∨
    (∃ outer, folder = outer ++ "/" ∧ pathIn folder name = folder ++ name) ∨
    folder ≠ "" ∧ pathIn folder name = folder ++ "/" ++ name := by
  rcases eq_or_ne folder "" with rfl | hne
  · simp [pathIn]
  · by_cases hslash : folder.endsWith "/" = true
    · have hpath : pathIn folder name = folder ++ name := if_pos (.inr hslash)
      rw [← String.endsWith_toSlice, String.Slice.endsWith_string_iff,
        String.copy_toSlice] at hslash
      obtain ⟨outer, houter⟩ := hslash
      refine .inr (.inl ⟨String.ofList outer, ?_, hpath⟩)
      rw [← String.toList_inj, ← houter]
      simp
    · exact .inr (.inr ⟨hne, if_neg (not_or.mpr ⟨hne, hslash⟩)⟩)

/-- The name is the last one on its path. Before it there are the names of the folder, without an
empty one at the end. -/
theorem exists_namesOf_pathIn (h : IsFileName name) (folder : String) : ∃ names,
    Host.namesOf (pathIn folder name) = names ++ [name] ∧
      (Host.namesOf folder = names ∨ Host.namesOf folder = names ++ [""]) := by
  have hname := Host.namesOf_of_notMem h.noSlash
  rcases pathIn_cases folder name with ⟨hfolder, hpath⟩ | ⟨outer, hfolder, hpath⟩ | ⟨-, hpath⟩
  · exact ⟨[], by rw [hpath, hname]; rfl, .inr (by rw [hfolder]; rfl)⟩
  · refine ⟨Host.namesOf outer, ?_, .inr ?_⟩
    · rw [hpath, hfolder, Host.namesOf_append_slash, hname]
    · have hends := Host.namesOf_append_slash outer ""
      rwa [String.append_empty, Host.namesOf_empty, ← hfolder] at hends
  · exact ⟨Host.namesOf folder, by rw [hpath, Host.namesOf_append_slash, hname], .inl rfl⟩

theorem pathIn_ne_empty (h : IsFileName name) (folder : String) : pathIn folder name ≠ "" := by
  rw [pathIn]
  split <;> simp [h.ne_empty]

/-- What a path begins with, its folder does. -/
theorem startsWith_pathIn (h : IsFileName name) (folder : String) :
    (pathIn folder name).startsWith "/" = folder.startsWith "/" := by
  rw [Bool.eq_iff_iff, String.startsWith_string_iff, String.startsWith_string_iff]
  rcases eq_or_ne folder "" with rfl | hne
  · have hpath : pathIn "" name = name := if_pos (.inl rfl)
    rw [hpath]
    exact iff_of_false (fun hslash => h.noSlash (hslash.subset (by simp))) (by simp)
  · have hcs : folder.toList ≠ [] := by simpa using hne
    obtain ⟨c, cs, hfolder⟩ := List.exists_cons_of_ne_nil hcs
    rw [pathIn]
    split <;> simp [hfolder]

theorem startOf_pathIn (h : IsFileName name) (fs : FileSystem) (folder : String) :
    fs.startOf (pathIn folder name) = fs.startOf folder := by
  rw [FileSystem.startOf, FileSystem.startOf, h.startsWith_pathIn]

/-- At every place the name means what the folder there has under it. -/
theorem entry?_eq (h : IsFileName name) (place : Place) :
    place.entry? name = place.contents.lookup name := by
  rw [Place.entry?, if_neg (not_or.mpr ⟨h.ne_empty, h.ne_dot⟩), if_neg h.ne_dots]

theorem checkPath_pathIn_eq_ok_iff (h : IsFileName name) (folder : String) :
    FileSystem.checkPath (pathIn folder name) = .ok () ↔
      (pathIn folder name).utf8ByteSize ≤ FileSystem.pathLimit := by
  rw [FileSystem.checkPath, if_neg (by simpa using h.pathIn_ne_empty folder)]
  split <;> simp <;> omega

/-- The path leads to the place of the folder. -/
theorem locate_pathIn_iff (h : IsFileName name) {place : Place} {last : String} :
    fs.locate (pathIn folder name) = .ok (place, last) ↔
      (pathIn folder name).utf8ByteSize ≤ FileSystem.pathLimit ∧
      name.utf8ByteSize ≤ Place.nameLimit ∧ fs.follow folder = .ok place ∧ last = name := by
  obtain ⟨names, hpath, hfolder⟩ := h.exists_namesOf_pathIn folder
  have hfollow : fs.follow folder = names.foldlM Place.enter (fs.startOf folder) := by
    rcases hfolder with hfolder | hfolder <;> rw [FileSystem.follow, hfolder]
    rw [List.foldlM_append]
    simp [Place.enter_empty]
  have hname : Place.checkName name = .ok () ↔ name.utf8ByteSize ≤ Place.nameLimit := by
    rw [Place.checkName]
    split <;> simp <;> omega
  simp only [FileSystem.locate, hpath, h.startOf_pathIn, bind_eq_ok_iff, exists_const,
    h.checkPath_pathIn_eq_ok_iff, return_eq_ok_iff, List.dropLast_concat, List.getLastD_concat,
    ← hfollow, hname, Prod.mk.injEq]
  constructor
  · intro hlocated
    obtain ⟨hlong, _, hplace, hshort, rfl, rfl⟩ := hlocated
    exact ⟨hlong, hshort, hplace, rfl⟩
  · intro hlimits
    obtain ⟨hlong, hshort, hplace, rfl⟩ := hlimits
    exact ⟨hlong, _, hplace, hshort, rfl, rfl⟩

/-- **Where a file is written.** A file with such a name can be written to a folder unless its path
or its name is too long, the path of the folder leads nowhere or the name is that of a folder. Then
the file is put there under its name, and nothing else changes. -/
theorem write_pathIn_iff (h : IsFileName name) {fs written : FileSystem} {bytes : List UInt8} :
    fs.write (pathIn folder name) bytes = .ok written ↔
      (pathIn folder name).utf8ByteSize ≤ FileSystem.pathLimit ∧
      name.utf8ByteSize ≤ Place.nameLimit ∧
      ∃ place, fs.follow folder = .ok place ∧
        (∀ contents, place.contents.lookup name ≠ some (.folder contents)) ∧
        written = { fs with root := place.rootWith name (.file bytes) } := by
  rw [FileSystem.write, bind_eq_ok_iff]
  simp only [Prod.exists, h.locate_pathIn_iff]
  constructor
  · intro hresult
    obtain ⟨place, _, ⟨hlong, hshort, hplace, rfl⟩, hwritten⟩ := hresult
    refine ⟨hlong, hshort, place, hplace, ?_⟩
    rw [h.entry?_eq] at hwritten
    split at hwritten
    · cases hwritten
    · next hfolder =>
      cases hwritten
      exact ⟨hfolder, rfl⟩
  · intro hlimits
    obtain ⟨hlong, hshort, place, hplace, hfolder, rfl⟩ := hlimits
    refine ⟨place, name, ⟨hlong, hshort, hplace, rfl⟩, ?_⟩
    rw [h.entry?_eq]
    split
    · next contents hcontents => exact absurd hcontents (hfolder contents)
    · rfl

end IsFileName

namespace CommandLine

variable {fs written : FileSystem} {folder printed : String} {file : ModelFile}

/-- The folder is made first, and then the file is written into it. -/
theorem run_perform_write :
    (perform FileSystem.host (.write folder file)).run fs =
      match (FileSystem.host.createFolders folder).run fs with
      | (.error e, made) => (.error (.noFolder folder e), made)
      | (.ok (), made) =>
        match made.write (pathIn folder file.name) file.content.bytes with
        | .error e => (.error (.unwritten (pathIn folder file.name) e), made)
        | .ok written => (.ok (pathIn folder file.name ++ "\n"), written) := by
  rw [perform, StateT.run_bind]
  rcases (FileSystem.host.createFolders folder).run fs with ⟨failure | -, made⟩
  · rfl
  · change (FileSystem.change (·.write (pathIn folder file.name) file.content.bytes) >>= _).run
      made = _
    rw [StateT.run_bind, FileSystem.run_change]
    dsimp only
    cases made.write (pathIn folder file.name) file.content.bytes <;> rfl

theorem run_perform_write_eq_ok (h : (perform FileSystem.host (.write folder file)).run fs =
    (.ok printed, written)) :
    ∃ made, (FileSystem.host.createFolders folder).run fs = (.ok (), made) ∧
      made.write (pathIn folder file.name) file.content.bytes = .ok written := by
  rw [run_perform_write] at h
  split at h
  · cases h
  · next made hmade =>
    split at h
    · cases h
    · next hwritten =>
      cases h
      exact ⟨made, hmade, hwritten⟩

end CommandLine

namespace ModelFile

/-- A file has a file name: it has no slash, and is longer than the names that mean folders. -/
theorem isFileName (m : Mesh Double) (format : FileFormat) (name : Option String) :
    IsFileName (ofMesh m format name).name := by
  have hslash : '/' ∉ (ofMesh m format name).name.toList := by
    have hname : '/' ∉ (SafeName.ofName name).toList := fun h =>
      absurd (SafeName.isSafe_of_mem_ofName h) (by decide)
    have hextension : '/' ∉ format.extension.toList := by cases format <;> decide
    simp [ofMesh, hname, hextension]
  have hlength : 4 ≤ (ofMesh m format name).name.length := by
    have hextension : format.extension.length = 3 := by cases format <;> decide
    have hdot : ".".length = 1 := by decide
    simp only [ofMesh, String.length_append, hextension, hdot]
    omega
  have hne (other : String) (h : other.length < 4) : (ofMesh m format name).name ≠ other := by
    rintro rfl
    omega
  exact ⟨hslash, hne "" (by decide), hne "." (by decide), hne ".." (by decide)⟩

/-- **Safe names and the files under them.** Whatever name a recipe has, and if it has none, the
safe name has characters, all of them ASCII letters, digits, dots, underscores and hyphens. If there
is no name, or an empty one, a name is given. In any other name each run of other characters,
however long it is, is replaced by one underscore, and what is between these runs stays. A safe name
is its own safe name.

In every format the name of the file is one step on a path, which is neither that of the folder
itself nor that of the folder around it. So the path of the file is that of its folder and one name
more. A file is written to this path if and only if the path of the folder leads to a place where
the name is not that of a folder, and nothing is too long; it is put there under its name. This is
what a run of the program does once it has made the folder. -/
theorem stands_in_folder (m : Mesh Double) (format : FileFormat) (name : Option String) :
    (∀ c, SafeName.isSafe c = true ↔ 'a' ≤ c ∧ c ≤ 'z' ∨ 'A' ≤ c ∧ c ≤ 'Z' ∨
      '0' ≤ c ∧ c ≤ '9' ∨ c = '.' ∨ c = '_' ∨ c = '-') ∧
    SafeName.ofName name ≠ "" ∧ (∀ c ∈ (SafeName.ofName name).toList, SafeName.isSafe c = true) ∧
    (name = none ∨ name = some "" → SafeName.ofName name = "model") ∧
    (∀ s, name = some s → s ≠ "" →
      (∃! runs, SafeName.AreRuns runs ∧ runs.flatten = s.toList) ∧
      ∀ runs, SafeName.AreRuns runs → runs.flatten = s.toList →
        (SafeName.ofName name).toList = runs.flatMap SafeName.replaceRun) ∧
    SafeName.ofName (some (SafeName.ofName name)) = SafeName.ofName name ∧
    ∀ file, file = ofMesh m format name →
      file.name = SafeName.ofName name ++ "." ++ format.extension ∧
      IsFileName file.name ∧ Host.namesOf file.name = [file.name] ∧
      ∀ folder, (∃ names, Host.namesOf (pathIn folder file.name) = names ++ [file.name] ∧
          (Host.namesOf folder = names ∨ Host.namesOf folder = names ++ [""])) ∧
        (∀ (fs written : FileSystem) (bytes : List UInt8),
          fs.write (pathIn folder file.name) bytes = .ok written ↔
            (pathIn folder file.name).utf8ByteSize ≤ FileSystem.pathLimit ∧
            file.name.utf8ByteSize ≤ Place.nameLimit ∧
            ∃ place, fs.follow folder = .ok place ∧
              (∀ contents, place.contents.lookup file.name ≠ some (.folder contents)) ∧
              written = { fs with root := place.rootWith file.name (.file bytes) }) ∧
        ∀ fs printed written,
          (CommandLine.perform FileSystem.host (.write folder file)).run fs =
            (.ok printed, written) →
          ∃ made place, (FileSystem.host.createFolders folder).run fs = (.ok (), made) ∧
            made.follow folder = .ok place ∧
            written =
              { made with root := place.rootWith file.name (.file file.content.bytes) } := by
  have hfile := isFileName m format name
  refine ⟨SafeName.isSafe_iff, SafeName.ofName_ne_empty name,
    fun _ => SafeName.isSafe_of_mem_ofName, ?missing, ?runs, SafeName.ofName_ofName name, ?file⟩
  case missing => rintro (rfl | rfl) <;> rfl
  case runs =>
    intro s hname hs
    obtain rfl := hname
    refine ⟨⟨s.toList.splitBy SafeName.alike,
      ⟨SafeName.areRuns_splitBy _, List.flatten_splitBy _ _⟩,
      fun runs hruns => hruns.1.eq_splitBy hruns.2⟩, fun runs hruns hs' => ?_⟩
    rw [SafeName.ofName_eq_of_ne hs, ← hs', SafeName.replaceRuns_flatten hruns,
      String.toList_ofList]
  case file =>
    rintro _ rfl
    refine ⟨rfl, hfile, Host.namesOf_of_notMem hfile.noSlash, fun folder =>
      ⟨hfile.exists_namesOf_pathIn folder, fun fs written bytes => hfile.write_pathIn_iff,
        fun fs printed written hrun => ?_⟩⟩
    obtain ⟨made, hmade, hwritten⟩ := CommandLine.run_perform_write_eq_ok hrun
    obtain ⟨-, -, place, hplace, -, hroot⟩ := hfile.write_pathIn_iff.mp hwritten
    exact ⟨made, place, hmade, hplace, hroot⟩

/-- A name that looks like a way out of the folder becomes that of a file in the folder. -/
theorem stands_in_folder_dots : ∃ (file : ModelFile) (fs written made : FileSystem) (place : Place),
    file = ofMesh (Mesh.ofPolygons []) .obj (some "../a b") ∧ file.name = ".._a_b.obj" ∧
    Host.namesOf file.name = [file.name] ∧ fs.root = [(FileSystem.workingName, .folder [])] ∧
    (CommandLine.perform FileSystem.host (.write "." file)).run fs =
      (.ok "./.._a_b.obj\n", written) ∧
    (FileSystem.host.createFolders ".").run fs = (.ok (), made) ∧ made.follow "." = .ok place ∧
    written = { made with root := place.rootWith file.name (.file file.content.bytes) } ∧
    written.files = [(".._a_b.obj", file.content.bytes)] := by
  obtain ⟨-, -, -, -, -, -, hstands⟩ :=
    stands_in_folder (Mesh.ofPolygons []) .obj (some "../a b")
  obtain ⟨file, hfile⟩ : ∃ file, file = ofMesh (Mesh.ofPolygons []) .obj (some "../a b") :=
    ⟨_, rfl⟩
  obtain ⟨-, hisName, hsingle, hfolder⟩ := hstands file hfile
  let fs : FileSystem := { root := [(FileSystem.workingName, .folder [])] }
  let place : Place := { contents := [], above := [(FileSystem.workingName, fs.root)] }
  let written : FileSystem :=
    { fs with root := place.rootWith file.name (.file file.content.bytes) }
  have hname : file.name = ".._a_b.obj" := by
    subst hfile
    decide
  have hpath : pathIn "." file.name = "./.._a_b.obj" := by
    rw [hname]
    cbv
  have hmade : (FileSystem.host.createFolders ".").run fs = (.ok (), fs) := by cbv
  have hplace : fs.follow "." = .ok place := by cbv
  have hwrite : fs.write (pathIn "." file.name) file.content.bytes = .ok written := by
    refine hisName.write_pathIn_iff.mpr ⟨?_, ?_, place, hplace, by simp [place], rfl⟩
    · rw [hpath]
      decide
    · rw [hname]
      decide
  have hrun : (CommandLine.perform FileSystem.host (.write "." file)).run fs =
      (.ok "./.._a_b.obj\n", written) := by
    have hprinted : "./.._a_b.obj" ++ "\n" = "./.._a_b.obj\n" := by decide
    simp only [CommandLine.run_perform_write, hmade, hwrite]
    rw [hpath, hprinted]
  obtain ⟨made, found, hmade', hfound, hwritten⟩ := (hfolder ".").2.2 fs _ _ hrun
  refine ⟨file, fs, written, made, found, hfile, hname, hsingle, rfl, hrun, hmade', hfound,
    hwritten, ?_⟩
  simp [written, place, fs, Place.rootWith, Place.rootFrom, FileSystem.files, FileSystem.working,
    Folder.inner, Folder.put, filesIn, Entry.filesAt, hname]

end ModelFile

end Solids
