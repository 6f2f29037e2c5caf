import Solids.Proofs.Guard
import Solids.Proofs.Refusals
import Solids.Proofs.Routes
/-!
# Solids.Proofs.AllOrNothing

**All or nothing.** A run reads a recipe, validates it, makes its solid and the text of a file from
that. Only then is anything written, so a run that comes to nothing before leaves everything as it
was, the folder for the file included.

Main definitions:

* `CommandLine.textOf` — the text that a run reads;
* `CommandLine.Writes` — the folder for a file can be made and the file written into it;
* `FileSystem.GainsFile` — one file more or another one, and perhaps new folders.

Main statements:

* `CommandLine.run_execute` — a run, step by step;
* `CommandLine.run_all_or_nothing` — what a run prints and what it leaves behind.
-/

namespace Solids

/-- The file is at the end of the route, and apart from it nothing has changed but for folders that
have been added. -/
def FileSystem.GainsFile (fs written : FileSystem) (route : List String) (bytes : List UInt8) :
    Prop :=
  written.kindAt route = some (.file bytes) ∧ ∀ other, other ≠ route →
    written.kindAt other = fs.kindAt other ∨
      fs.kindAt other = none ∧ written.kindAt other = some .folder

namespace CommandLine

variable {env : Environment} {args : List String} {i : Invocation} {fs after : FileSystem}
  {options : CompileOptions} {text folder : String} {recipe : Recipe Double}
  {compiled : Compiled Double (Mesh Double)} {file : ModelFile} {outcome : Outcome}

/-! ### The steps of a run -/

/-- The text that is read from an input. A hyphen is standard input. -/
def textOf (fs : FileSystem) (input : String) : Except HostError String :=
  if input = "-" then Host.decodeText fs.input else (fs.read input).bind Host.decodeText

theorem textOf_hyphen (fs : FileSystem) : textOf fs "-" = Host.decodeText fs.input := if_pos rfl

theorem run_readRecipe (fs : FileSystem) (input : String) :
    (readRecipe FileSystem.host input).run fs =
      ((textOf fs input).mapError (.unreadable input), fs) := by
  unfold readRecipe textOf
  split <;> rfl

/-- **A run step by step.** Up to the task nothing is changed. -/
theorem run_execute (fs : FileSystem) (i : Invocation) : (execute FileSystem.host i).run fs =
    match textOf fs i.input with
    | .error e => (.error (.unreadable i.input e), fs)
    | .ok text =>
      match taskOf i.options text i.command with
      | .error e => (.error e, fs)
      | .ok task => (perform FileSystem.host task).run fs := by
  rw [execute, StateT.run_bind, run_readRecipe]
  cases textOf fs i.input with
  | error e => rfl
  | ok text =>
    change (match taskOf i.options text i.command with
      | .error e => pure (.error e)
      | .ok task => perform FileSystem.host task : StateM FileSystem _).run fs = _
    dsimp only
    cases taskOf i.options text i.command <;> rfl

/-- What a run leaves behind, apart from files. -/
def outcomeOf : Except Failure String → Outcome
  | .ok text => { exitCode := 0, stdout := text }
  | .error failure => failure.outcome

theorem run_run (hargs : Invocation.ofArguments env args = .ok i) (fs : FileSystem) :
    (run FileSystem.host env args).run fs =
      (outcomeOf ((execute FileSystem.host i).run fs).1,
        ((execute FileSystem.host i).run fs).2) := by
  rw [run, hargs]
  dsimp only
  rw [StateT.run_bind]
  rcases (execute FileSystem.host i).run fs with ⟨e | printed, after⟩ <;> rfl

theorem meshOf_eq_ok_iff : meshOf options recipe = .ok compiled ↔
    (recipe.compile (Kernel.mesh Settings.default) options).run = some (.ok compiled) := by
  unfold meshOf
  split <;> simp_all

theorem solidOf_eq_ok_iff : solidOf options text = .ok (recipe, compiled) ↔
    Recipe.ofText text = .ok recipe ∧
      (recipe.compile (Kernel.mesh Settings.default) options).run = some (.ok compiled) := by
  rw [← meshOf_eq_ok_iff]
  simp only [solidOf, bind_eq_ok_iff, return_eq_ok_iff, Prod.mk.injEq, mapError_eq_ok_iff]
  constructor
  · intro h
    obtain ⟨_, htext, _, hmesh, rfl, rfl⟩ := h
    exact ⟨htext, hmesh⟩
  · intro h
    exact ⟨recipe, h.1, compiled, h.2, rfl, rfl⟩

theorem solidOf_of_meshOf_eq_error {failure : Failure} (hrecipe : Recipe.ofText text = .ok recipe)
    (hmesh : meshOf options recipe = .error failure) : solidOf options text = .error failure := by
  rw [solidOf, hrecipe]
  exact bind_eq_error_iff.mpr (.inr ⟨recipe, rfl, bind_eq_error_iff.mpr (.inl hmesh)⟩)

theorem solidOf_of_refused {e : RecipeError Double} (hrecipe : Recipe.ofText text = .ok recipe)
    (hcompile : (recipe.compile (Kernel.mesh Settings.default) options).run = some (.error e)) :
    solidOf options text = .error (.refused e) := by
  refine solidOf_of_meshOf_eq_error hrecipe ?_
  rw [meshOf, hcompile]

theorem solidOf_of_unending (hrecipe : Recipe.ofText text = .ok recipe)
    (hcompile : (recipe.compile (Kernel.mesh Settings.default) options).run = none) :
    solidOf options text = .error .unending := by
  refine solidOf_of_meshOf_eq_error hrecipe ?_
  rw [meshOf, hcompile]

theorem taskOf_of_error {failure : Failure} (h : solidOf options text = .error failure)
    (command : Command) : taskOf options text command = .error failure := by
  cases command <;> exact bind_eq_error_iff.mpr (.inl h)

theorem taskOf_check (h : solidOf options text = .ok (recipe, compiled)) :
    taskOf options text .check = .ok (.print ((statistics recipe compiled).pretty ++ "\n")) :=
  bind_eq_ok_iff.mpr ⟨_, h, rfl⟩

theorem taskOf_export (h : solidOf options text = .ok (recipe, compiled)) (format : FileFormat)
    (out : String) (json : Bool) (hfile : file = .ofMesh compiled.geometry format recipe.name) :
    taskOf options text (.export format out json) = .ok (if json then
      .print ((file.envelope compiled.nodeCount compiled.boundingBox).pretty ++ "\n")
      else .write out file) := by
  refine bind_eq_ok_iff.mpr ⟨_, h, ?_⟩
  cases json <;> rw [hfile] <;> rfl

/-! ### What a run leaves behind -/

/-- The folder for a file can be made, the file can be written into it, and that is what there is
then. -/
def Writes (fs : FileSystem) (folder : String) (file : ModelFile) (written : FileSystem) : Prop :=
  ∃ made, (FileSystem.host.createFolders folder).run fs = (.ok (), made) ∧
    made.write (pathIn folder file.name) file.content.bytes = .ok written

/-- The run fails, prints nothing and changes nothing. -/
def IsNothing (fs : FileSystem) (outcome : Outcome) (after : FileSystem) : Prop :=
  outcome.exitCode = 1 ∧ outcome.stdout = "" ∧ after = fs

section Execute

variable {task : Task} {failure : Failure}

theorem run_execute_of_ok (htext : textOf fs i.input = .ok text)
    (htask : taskOf i.options text i.command = .ok task) :
    (execute FileSystem.host i).run fs = (perform FileSystem.host task).run fs := by
  rw [run_execute, htext]
  dsimp only
  rw [htask]

theorem run_execute_of_solidOf_eq_error (htext : textOf fs i.input = .ok text)
    (hsolid : solidOf i.options text = .error failure) :
    (execute FileSystem.host i).run fs = (.error failure, fs) := by
  rw [run_execute, htext]
  dsimp only
  rw [taskOf_of_error hsolid]

/-- What is printed or complained about, and what is left behind, is what the command gave. -/
theorem eq_of_run_eq (hargs : Invocation.ofArguments env args = .ok i)
    (hrun : (run FileSystem.host env args).run fs = (outcome, after))
    {result : Except Failure String} {left : FileSystem}
    (h : (execute FileSystem.host i).run fs = (result, left)) :
    outcome = outcomeOf result ∧ after = left := by
  rw [run_run hargs, h] at hrun
  exact ⟨(congrArg Prod.fst hrun).symm, (congrArg Prod.snd hrun).symm⟩

end Execute

/-- A file that is written to a folder is the only one that changes, and is read from its path. -/
theorem Writes.gainsFile (hname : IsFileName file.name) (hworking : fs.HasWorking)
    (h : Writes fs folder file after) :
    after.read (pathIn folder file.name) = .ok file.content.bytes ∧
      ∃ place, after.follow folder = .ok place ∧
        fs.GainsFile after (place.route ++ [file.name]) file.content.bytes := by
  obtain ⟨made, hmade, hwritten⟩ := h
  have hextends := FileSystem.extends_createFolders hworking folder
  rw [hmade] at hextends
  have hworking' := hextends.hasWorking hworking
  obtain ⟨place, hplace, -, hkind⟩ := hname.kindAt_write hworking' hwritten
  obtain ⟨place', hplace', -, hroute⟩ :=
    (hname.keepsFolders_write hworking' hwritten).follow hworking' hplace
  refine ⟨hname.read_write hworking' hwritten, place', hplace', ?_, fun other hother => ?_⟩
  · rw [hroute, hkind, if_pos rfl]
  · rw [hroute] at hother
    rw [hkind, if_neg hother]
    exact hextends other

theorem Writes.run_perform (h : Writes fs folder file after) :
    (perform FileSystem.host (.write folder file)).run fs =
      (.ok (pathIn folder file.name ++ "\n"), after) := by
  obtain ⟨made, hmade, hwritten⟩ := h
  rw [run_perform_write, hmade]
  dsimp only
  rw [hwritten]

/-- A file that cannot be written leaves folders alone behind. -/
theorem exists_run_perform_of_not_writes (hworking : fs.HasWorking)
    (h : ∀ written, ¬ Writes fs folder file written) : ∃ failure left,
    (perform FileSystem.host (.write folder file)).run fs = (.error failure, left) ∧
      fs.Extends left := by
  have hextends := FileSystem.extends_createFolders hworking folder
  rw [run_perform_write]
  generalize hmade : (FileSystem.host.createFolders folder).run fs = result at hextends ⊢
  obtain ⟨e | _, made⟩ := result
  · exact ⟨_, made, rfl, hextends⟩
  · dsimp only
    cases hwritten : made.write (pathIn folder file.name) file.content.bytes with
    | error e => exact ⟨_, made, rfl, hextends⟩
    | ok written => exact absurd ⟨made, hmade, hwritten⟩ (h written)

/-- **All or nothing.** Let the arguments be understood, whatever they are, and let there be a
folder in which the program runs. If the recipe cannot be read, or what is read is no recipe, or
there is no solid for it, the run fails: it exits with one, prints nothing and changes nothing, so
not even the folder for the file is made. Otherwise there is a text for the file, since making it
cannot fail. A check and an export in JSON print their report and change nothing, either. Any other
export prints the path of the file, if the file can be written. The path is then read as what the
file holds, and apart from that file nothing has changed but for the folders that were made. If it
cannot be written the run fails and prints nothing, and only folders may be there that were not. -/
theorem run_all_or_nothing (hargs : Invocation.ofArguments env args = .ok i)
    (hworking : fs.HasWorking)
    (hrun : (run FileSystem.host env args).run fs = (outcome, after)) :
    (∀ e, textOf fs i.input = .error e → IsNothing fs outcome after) ∧
    (∀ text e, textOf fs i.input = .ok text → Recipe.ofText text = .error e →
      IsNothing fs outcome after) ∧
    (∀ text recipe, textOf fs i.input = .ok text → Recipe.ofText text = .ok recipe →
      (∀ e, (recipe.compile (Kernel.mesh Settings.default) i.options).run = some (.error e) →
        IsNothing fs outcome after) ∧
      ((recipe.compile (Kernel.mesh Settings.default) i.options).run = none → after = fs)) ∧
    ∀ text recipe compiled, textOf fs i.input = .ok text → Recipe.ofText text = .ok recipe →
      (recipe.compile (Kernel.mesh Settings.default) i.options).run = some (.ok compiled) →
      (i.command = .check → after = fs ∧
        outcome = { exitCode := 0, stdout := (statistics recipe compiled).pretty ++ "\n" }) ∧
      ∀ format out json file, i.command = .export format out json →
        file = .ofMesh compiled.geometry format recipe.name →
        (json = true → after = fs ∧ outcome = { exitCode := 0, stdout :=
          (file.envelope compiled.nodeCount compiled.boundingBox).pretty ++ "\n" }) ∧
        (json = false →
          (∀ written, Writes fs out file written → after = written ∧
            outcome = { exitCode := 0, stdout := pathIn out file.name ++ "\n" } ∧
            after.read (pathIn out file.name) = .ok file.content.bytes ∧
            ∃ place, after.follow out = .ok place ∧
              fs.GainsFile after (place.route ++ [file.name]) file.content.bytes) ∧
          ((∀ written, ¬ Writes fs out file written) →
            outcome.exitCode = 1 ∧ outcome.stdout = "" ∧ fs.Extends after)) := by
  have hends {result : Except Failure String} {left : FileSystem}
      (h : (execute FileSystem.host i).run fs = (result, left)) :
      outcome = outcomeOf result ∧ after = left := eq_of_run_eq hargs hrun h
  have hnothing (failure : Failure)
      (h : (execute FileSystem.host i).run fs = (.error failure, fs)) :
      IsNothing fs outcome after := by
    obtain ⟨rfl, rfl⟩ := hends h
    exact ⟨rfl, rfl, rfl⟩
  refine ⟨?unread, ?invalid, ?refused, ?succeeds⟩
  case unread =>
    intro e htext
    refine hnothing (.unreadable i.input e) ?_
    rw [run_execute, htext]
  case invalid =>
    intro text e htext hrecipe
    refine hnothing (.refused (.validation e)) (run_execute_of_solidOf_eq_error htext ?_)
    rw [solidOf, hrecipe]
    rfl
  case refused =>
    intro text recipe htext hrecipe
    refine ⟨fun e hcompile => hnothing (.refused e) ?_, fun hcompile => ?_⟩
    · exact run_execute_of_solidOf_eq_error htext (solidOf_of_refused hrecipe hcompile)
    · exact (hends (run_execute_of_solidOf_eq_error htext
        (solidOf_of_unending hrecipe hcompile))).2
  case succeeds =>
    intro text recipe compiled htext hrecipe hcompiled
    have hsolid := solidOf_eq_ok_iff.mpr ⟨hrecipe, hcompiled⟩
    refine ⟨fun hcheck => ?_, fun format out json file hexport hfile => ⟨?_, ?_⟩⟩
    · have htask := taskOf_check hsolid
      rw [← hcheck] at htask
      exact (hends (run_execute_of_ok htext htask)).symm
    · rintro rfl
      have htask := taskOf_export hsolid format out true hfile
      rw [← hexport] at htask
      exact (hends (run_execute_of_ok htext htask)).symm
    · rintro rfl
      have htask := taskOf_export hsolid format out false hfile
      rw [← hexport] at htask
      have hexecute := run_execute_of_ok htext htask
      refine ⟨fun written hwrites => ?_, fun hfails => ?_⟩
      · have hname : IsFileName file.name := hfile ▸ ModelFile.isFileName _ _ _
        obtain ⟨houtcome, rfl⟩ := hends (hexecute.trans hwrites.run_perform)
        exact ⟨rfl, houtcome, hwrites.gainsFile hname hworking⟩
      · obtain ⟨failure, left, hperform, hextends⟩ :=
          exists_run_perform_of_not_writes hworking hfails
        obtain ⟨rfl, rfl⟩ := hends (hexecute.trans hperform)
        exact ⟨rfl, rfl, hextends⟩

/-- The text of a recipe for a cube. -/
def cubeText : String :=
  "\x7b\"version\":1,\"root\":\x7b\"type\":\"cuboid\",\"size\":[1,1,1]\x7d\x7d"

/-- The lengths of its edges. -/
def cubeSize : Vec3 Double :=
  ⟨(Number.natural 1).toDouble, (Number.natural 1).toDouble, (Number.natural 1).toDouble⟩

/-- The recipe. -/
def cubeRecipe : Recipe Double := ⟨1, .mm, none, .shape (.cuboid cubeSize none)⟩

theorem ofText_cubeText : Recipe.ofText cubeText = .ok cubeRecipe := by
  have hread : Json.read cubeText.toList = .ok (.object [("root", .object
      [("size", .array [.ofNat 1, .ofNat 1, .ofNat 1]), ("type", .string "cuboid")]),
      ("version", .ofNat 1)]) := by cbv
  refine Recipe.ofText_eq_ok.mpr ⟨by decide +kernel, _, hread, Recipe.ofJson_of_isRecipe ?_⟩
  refine ⟨⟨_, rfl, by decide⟩, rfl, ⟨none, rfl, rfl⟩, rfl, ⟨_, rfl, ?_⟩, by decide⟩
  exact .shape (.cuboid rfl ⟨_, rfl, .numbers _ _ _⟩ rfl)

theorem exists_compiled_cubeRecipe : ∃ compiled,
    (cubeRecipe.compile (Kernel.mesh .default) {}).run = some (.ok compiled) := by
  have hlengths : (cubeSize.any fun a => decide (a < 0)) = false ∧
      cubeSize.any Scalar.isZero = false := by decide +kernel
  have hshape : ∃ m, Mesh.ofShape (.cuboid cubeSize none) = .ok m := by
    rw [Mesh.ofShape, Mesh.cuboid, Mesh.requireFinite_eq_ok .size (by simp [Vec3.toList, cubeSize]),
      Mesh.resolveCenter_eq_ok (by simp)]
    simp [hlengths, bind, Except.bind, pure, Except.pure]
  obtain ⟨m, hm⟩ := hshape
  have hlimits : cubeRecipe.checkLimits {} = .ok 1 := by
    simp only [Recipe.checkLimits, Recipe.checkSegments, Node.count_eq_size, Node.depth_eq_levels]
    rfl
  have hscale : cubeRecipe.unitScale? {} = none := rfl
  refine ⟨⟨m, 1, m.boundingBox⟩, ?_⟩
  rw [Recipe.run_compile_of_ok _ hlimits, Recipe.construct, hscale]
  simp [cubeRecipe, Kernel.compileNode, Kernel.performAt, Kernel.placed, Kernel.mesh, hm,
    Recipe.outcome]

/-- The arguments that ask for a file in a new folder. -/
def madeArguments : List String := ["export", "-", "--format", "obj", "--out", "made"]

/-- A cube is written to a folder that is made for it. Of a text that is cut off and of bytes that
are no text nothing is left, nor is the folder. -/
theorem run_all_or_nothing_cube : ∃ (i : Invocation) (fs broken garbled after : FileSystem)
    (file : ModelFile) (place : Place) (outcome refusal : Outcome),
    Invocation.ofArguments [] madeArguments = .ok i ∧
    fs = { root := [(FileSystem.workingName, .folder [])], input := cubeText.toUTF8.data.toList } ∧
    broken = { fs with input := "\x7b".toUTF8.data.toList } ∧
    garbled = { fs with input := [0xff] } ∧
    fs.HasWorking ∧ broken.HasWorking ∧ garbled.HasWorking ∧
    file.name = "model.obj" ∧ fs.kindAt [FileSystem.workingName, "made"] = none ∧
    (run FileSystem.host [] madeArguments).run fs =
      ({ exitCode := 0, stdout := "made/model.obj\n" }, after) ∧
    after.read "made/model.obj" = .ok file.content.bytes ∧ after.follow "made" = .ok place ∧
    place.route = [FileSystem.workingName, "made"] ∧
    fs.GainsFile after [FileSystem.workingName, "made", "model.obj"] file.content.bytes ∧
    (run FileSystem.host [] madeArguments).run broken = (outcome, broken) ∧
    outcome.exitCode = 1 ∧ outcome.stdout = "" ∧
    (run FileSystem.host [] madeArguments).run garbled = (refusal, garbled) ∧
    refusal.exitCode = 1 ∧ refusal.stdout = "" := by
  let fs : FileSystem :=
    { root := [(FileSystem.workingName, .folder [])], input := cubeText.toUTF8.data.toList }
  let broken : FileSystem := { fs with input := "\x7b".toUTF8.data.toList }
  let garbled : FileSystem := { fs with input := [0xff] }
  let made : FileSystem :=
    { fs with root := [(FileSystem.workingName, .folder [("made", .folder [])])] }
  let place : Place :=
    { contents := [],
      above := [("made", [("made", .folder [])]), (FileSystem.workingName, made.root)] }
  have hargs : Invocation.ofArguments [] madeArguments =
      .ok ⟨{}, "-", .export .obj "made" false⟩ := by cbv
  obtain ⟨compiled, hcompiled⟩ := exists_compiled_cubeRecipe
  obtain ⟨file, hfile⟩ : ∃ file, file = ModelFile.ofMesh compiled.geometry .obj cubeRecipe.name :=
    ⟨_, rfl⟩
  have hisName : IsFileName file.name := hfile ▸ ModelFile.isFileName _ _ _
  have hname : file.name = "model.obj" := by
    subst hfile
    show SafeName.ofName none ++ "." ++ FileFormat.obj.extension = _
    decide
  have hpath : pathIn "made" file.name = "made/model.obj" := by
    rw [hname]
    cbv
  have hmade : (FileSystem.host.createFolders "made").run fs = (.ok (), made) := by cbv
  have hplace : made.follow "made" = .ok place := by cbv
  let after : FileSystem :=
    { made with root := place.rootWith file.name (.file file.content.bytes) }
  have hwrite : made.write (pathIn "made" file.name) file.content.bytes = .ok after := by
    refine hisName.write_pathIn_iff.mpr ⟨?_, ?_, place, hplace, by simp [place], rfl⟩
    · rw [hpath]
      decide
    · rw [hname]
      decide
  obtain ⟨outcome, left, hrun⟩ : ∃ outcome left,
      (run FileSystem.host [] madeArguments).run fs = (outcome, left) := ⟨_, _, rfl⟩
  have htext : textOf fs "-" = .ok cubeText := by rw [textOf_hyphen, Host.decodeText_toUTF8]
  have hbrokenText : textOf broken "-" = .ok "\x7b" := by
    rw [textOf_hyphen, Host.decodeText_toUTF8]
  have hgarbledText : textOf garbled "-" = .error .notText := by cbv
  have hworking : fs.HasWorking ∧ broken.HasWorking ∧ garbled.HasWorking ∧ made.HasWorking :=
    ⟨rfl, rfl, rfl, rfl⟩
  obtain ⟨-, -, -, hsucceeds⟩ := run_all_or_nothing hargs hworking.1 hrun
  obtain ⟨-, hexport⟩ := hsucceeds cubeText cubeRecipe compiled htext ofText_cubeText hcompiled
  obtain ⟨rfl, rfl, hread, found, hfound, hgains⟩ :=
    ((hexport .obj "made" false file rfl hfile).2 rfl).1 after ⟨made, hmade, hwrite⟩
  obtain ⟨found', hfound', -, hroute⟩ :=
    (hisName.keepsFolders_write hworking.2.2.2 hwrite).follow hworking.2.2.2 hplace
  obtain rfl : found' = found := Except.ok.inj (hfound'.symm.trans hfound)
  obtain ⟨outcome, left, hbroken⟩ : ∃ outcome left,
      (run FileSystem.host [] madeArguments).run broken = (outcome, left) := ⟨_, _, rfl⟩
  obtain ⟨-, hinvalid, -, -⟩ := run_all_or_nothing hargs hworking.2.1 hbroken
  obtain ⟨hcode, hstdout, rfl⟩ := hinvalid "\x7b" _ hbrokenText rfl
  obtain ⟨refusal, left, hgarbled⟩ : ∃ refusal left,
      (run FileSystem.host [] madeArguments).run garbled = (refusal, left) := ⟨_, _, rfl⟩
  obtain ⟨hunread, -, -, -⟩ := run_all_or_nothing hargs hworking.2.2.1 hgarbled
  obtain ⟨hcode', hstdout', rfl⟩ := hunread .notText hgarbledText
  have hprinted : "made/model.obj" ++ "\n" = "made/model.obj\n" := by decide
  rw [hpath, hprinted] at hrun
  rw [hpath] at hread
  rw [hroute, hname] at hgains
  exact ⟨_, fs, broken, garbled, _, file, found', outcome, refusal, hargs, rfl, rfl, rfl,
    hworking.1, hworking.2.1, hworking.2.2.1, hname, rfl, hrun, hread, hfound, hroute, hgains,
    hbroken, hcode, hstdout, hgarbled, hcode', hstdout'⟩

end CommandLine

end Solids
