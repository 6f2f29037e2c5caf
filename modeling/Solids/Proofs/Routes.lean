import Solids.Proofs.SafeFileName
/-!
# Solids.Proofs.Routes

**What a change leaves as it was.** A file system is a tree, and what is in it is found along a
route, name by name from the root. A service changes what is at the end of one route, and what is
along any other route stays, although the folders on the way are put together anew.

Main definitions:

* `FileSystem.kindAt` — what is at the end of a route;
* `Place.route` and `Place.IsIn` — the route to a place, and that it is one of a root;
* `FileSystem.Extends` — there are more folders than before, and all else is as it was.

Main statements:

* `Place.kindAt_rootWith` — what is where once an entry has been put in a folder;
* `FileSystem.extends_createFolders` — making folders adds folders alone, if it fails, too;
* `IsFileName.kindAt_write` and `IsFileName.read_write` — a file that is written changes one route,
  and is read back from its path.
-/

namespace Solids

/-- What is at the end of a route: a folder, whatever is in it, or a file with its bytes. -/
inductive Kind where
  /-- A folder. -/
  | folder
  /-- A file. -/
  | file (bytes : List UInt8)
  deriving DecidableEq

/-! ### Routes into entries -/

namespace Entry

/-- What is at the end of a route that begins at an entry. -/
def kindAt : Entry → List String → Option Kind
  | .folder _, [] => some .folder
  | .file bytes, [] => some (.file bytes)
  | .folder contents, name :: rest => (contents.lookup name).bind fun e => e.kindAt rest
  | .file _, _ :: _ => none

variable {f : Folder} {name : String} {e : Entry}

@[simp] theorem kindAt_folder_nil (f : Folder) : (folder f).kindAt [] = some .folder := rfl

@[simp] theorem kindAt_file_nil (bytes : List UInt8) :
    (file bytes).kindAt [] = some (.file bytes) := rfl

@[simp] theorem kindAt_file_cons (bytes : List UInt8) (name : String) (rest : List String) :
    (file bytes).kindAt (name :: rest) = none := rfl

theorem kindAt_folder_cons (f : Folder) (name : String) (rest : List String) :
    (folder f).kindAt (name :: rest) = (f.lookup name).bind fun e => e.kindAt rest := rfl

theorem kindAt_of_lookup (h : f.lookup name = some e) (rest : List String) :
    (folder f).kindAt (name :: rest) = e.kindAt rest := by
  rw [kindAt_folder_cons, h, Option.bind_some]

theorem lookup_put_of_ne {other : String} (h : other ≠ name) :
    (f.put name e).lookup other = f.lookup other := by
  have hfilter : (f.filter fun old => old.1 != name).lookup other = f.lookup other := by
    induction f with
    | nil => rfl
    | cons old f ih =>
      obtain ⟨key, value⟩ := old
      by_cases hkey : key = name
      · rw [List.filter_cons_of_neg (by simp [hkey]), ih, List.lookup_cons, hkey,
          beq_false_of_ne h]
      · rw [List.filter_cons_of_pos (by simp [hkey]), List.lookup_cons, List.lookup_cons, ih]
  rw [Folder.put, List.lookup_cons, beq_false_of_ne h]
  exact hfilter

theorem kindAt_put_self (rest : List String) :
    (folder (f.put name e)).kindAt (name :: rest) = e.kindAt rest :=
  kindAt_of_lookup (f.lookup_put_self name e) rest

theorem kindAt_put_of_ne {other : String} (h : other ≠ name) (rest : List String) :
    (folder (f.put name e)).kindAt (other :: rest) = (folder f).kindAt (other :: rest) := by
  rw [kindAt_folder_cons, kindAt_folder_cons, lookup_put_of_ne h]

/-- A folder is at the end of a route of one name if the name is that of a folder. -/
theorem kindAt_singleton_eq_folder :
    (folder f).kindAt [name] = some .folder ↔
      ∃ contents, f.lookup name = some (.folder contents) := by
  rw [kindAt_folder_cons]
  cases f.lookup name with
  | none => simp
  | some e => cases e <;> simp

theorem kindAt_singleton_eq_file {bytes : List UInt8} :
    (folder f).kindAt [name] = some (.file bytes) ↔ f.lookup name = some (.file bytes) := by
  rw [kindAt_folder_cons]
  cases f.lookup name with
  | none => simp
  | some e => cases e <;> simp

end Entry

/-! ### Routes to places -/

namespace Place

open Entry (kindAt)

variable {root contents : Folder} {above : List (String × Folder)} {p q : Place} {name : String}
  {e : Entry}

/-- The names of some folders, the outermost one first. -/
def routeOf (above : List (String × Folder)) : List String := (above.map Prod.fst).reverse

/-- The names on the way from the root to a place. -/
def route (p : Place) : List String := routeOf p.above

/-- The folders contain each other, the innermost one these contents, and the outermost one is the
root. -/
def AreAround (root : Folder) : List (String × Folder) → Folder → Prop
  | [], contents => contents = root
  | (name, outer) :: above, contents =>
    outer.lookup name = some (.folder contents) ∧ AreAround root above outer

/-- The place is in the root. -/
def IsIn (p : Place) (root : Folder) : Prop := AreAround root p.above p.contents

theorem routeOf_cons_append (name : String) (outer : Folder) (above : List (String × Folder))
    (rest : List String) :
    routeOf ((name, outer) :: above) ++ rest = routeOf above ++ name :: rest := by
  simp [routeOf]

theorem route_within (contents : Folder) (name : String) (outer : Folder)
    (above : List (String × Folder)) :
    route { contents, above := (name, outer) :: above } = routeOf above ++ [name] := by
  simp [route, routeOf]

/-- A route through a folder goes on in what it contains. -/
theorem AreAround.kindAt_append (h : AreAround root above contents) (rest : List String) :
    kindAt (.folder root) (routeOf above ++ rest) = kindAt (.folder contents) rest := by
  induction above generalizing contents rest with
  | nil =>
    obtain rfl : contents = root := h
    rfl
  | cons around above ih =>
    obtain ⟨hlookup, haround⟩ := h
    rw [routeOf_cons_append, ih haround, Entry.kindAt_of_lookup hlookup]

/-- With other contents, what was contained is along the same routes as before. -/
theorem AreAround.kindAt_rootFrom (h : AreAround root above contents) (changed : Folder) :
    (∀ rest, kindAt (.folder (rootFrom changed above)) (routeOf above ++ rest) =
      kindAt (.folder changed) rest) ∧
    ∀ other, ¬ routeOf above <+: other →
      kindAt (.folder (rootFrom changed above)) other = kindAt (.folder root) other := by
  induction above generalizing contents changed with
  | nil => exact ⟨fun rest => rfl, fun other hother => absurd (List.nil_prefix) hother⟩
  | cons around above ih =>
    obtain ⟨name, outer⟩ := around
    obtain ⟨hlookup, haround⟩ := h
    obtain ⟨hwithin, hbeside⟩ := ih haround (outer.put name (.folder changed))
    refine ⟨fun rest => ?_, fun other hother => ?_⟩
    · rw [routeOf_cons_append, rootFrom, hwithin, Entry.kindAt_put_self]
    · by_cases hprefix : routeOf above <+: other
      · obtain ⟨rest, rfl⟩ := hprefix
        rw [rootFrom, hwithin, haround.kindAt_append]
        cases rest with
        | nil => rfl
        | cons first rest =>
          refine Entry.kindAt_put_of_ne ?_ rest
          rintro rfl
          exact hother ⟨rest, routeOf_cons_append ..⟩
      · exact hbeside other hprefix

theorem IsIn.kindAt_route (h : p.IsIn root) (rest : List String) :
    kindAt (.folder root) (p.route ++ rest) = kindAt (.folder p.contents) rest :=
  AreAround.kindAt_append h rest

/-- **What is where once an entry has been put in a folder.** If there was no folder under its name
and there is nothing in it, what is at the end of any other route stays. -/
theorem IsIn.kindAt_rootWith (h : p.IsIn root)
    (hold : ∀ contents, p.contents.lookup name ≠ some (.folder contents))
    (hnew : ∀ first rest, e.kindAt (first :: rest) = none) (other : List String) :
    kindAt (.folder (p.rootWith name e)) other =
      if other = p.route ++ [name] then e.kindAt [] else kindAt (.folder root) other := by
  obtain ⟨hwithin, hbeside⟩ := AreAround.kindAt_rootFrom h (p.contents.put name e)
  by_cases hprefix : p.route <+: other
  · obtain ⟨rest, rfl⟩ := hprefix
    have happend : p.route ++ rest = p.route ++ [name] ↔ rest = [name] := List.append_right_inj _
    rw [rootWith, route, hwithin, ← route, h.kindAt_route]
    simp only [happend]
    cases rest with
    | nil => simp
    | cons first rest =>
      by_cases hname : first = name
      · obtain rfl := hname
        rw [Entry.kindAt_put_self]
        cases rest with
        | nil => simp
        | cons second rest =>
          rw [hnew, if_neg (by simp), Entry.kindAt_folder_cons]
          cases hlookup : p.contents.lookup first with
          | none => rfl
          | some old =>
            cases old with
            | file bytes => rfl
            | folder contents => exact absurd hlookup (hold contents)
      · rw [Entry.kindAt_put_of_ne hname, if_neg (by simp [hname])]
  · have hne : other ≠ p.route ++ [name] := by
      rintro rfl
      exact hprefix (List.prefix_append _ _)
    rw [if_neg hne]
    exact hbeside other hprefix

theorem lookup_eq_none_of_entry_eq_none (h : p.entry? name = none) :
    p.contents.lookup name = none := by
  rw [Place.entry?] at h
  split at h
  · cases h
  · split at h
    · cases h
    · exact h

theorem IsIn.leave (h : p.IsIn root) : p.leave.IsIn root := by
  obtain ⟨contents, above⟩ := p
  cases above with
  | nil => exact h
  | cons around above => exact h.2

theorem route_leave (p : Place) : p.leave.route = p.route.dropLast := by
  obtain ⟨contents, above⟩ := p
  cases above with
  | nil => rfl
  | cons around above => simp [leave, route, routeOf]

theorem checkName_eq_ok_iff : checkName name = .ok () ↔ name.utf8ByteSize ≤ nameLimit := by
  rw [checkName]
  split <;> simp <;> omega

/-- A name leads on if it is one that stays, the one that leads out or that of a folder. -/
theorem enter_eq_ok_iff : p.enter name = .ok q ↔ name.utf8ByteSize ≤ nameLimit ∧
    ((name = "" ∨ name = ".") ∧ p = q ∨
      ¬ (name = "" ∨ name = ".") ∧ name = ".." ∧ p.leave = q ∨
      ¬ (name = "" ∨ name = ".") ∧ name ≠ ".." ∧ ∃ contents,
        p.contents.lookup name = some (.folder contents) ∧
          { contents, above := (name, p.contents) :: p.above } = q) := by
  rw [enter, check_bind_eq_ok_iff, checkName_eq_ok_iff]
  refine and_congr_right fun _ => ?_
  by_cases hstays : name = "" ∨ name = "."
  · rw [if_pos hstays, return_eq_ok_iff]
    tauto
  · rw [if_neg hstays]
    by_cases hleads : name = ".."
    · rw [if_pos hleads, return_eq_ok_iff]
      tauto
    · rw [if_neg hleads]
      cases hlookup : p.contents.lookup name with
      | none => simp [hstays, hleads]
      | some e =>
        cases e with
        | file bytes => simp [hstays, hleads]
        | folder contents => simp [hstays, hleads, return_eq_ok_iff]

theorem IsIn.enter (h : p.IsIn root) (hq : p.enter name = .ok q) : q.IsIn root := by
  obtain ⟨-, ⟨-, rfl⟩ | ⟨-, -, rfl⟩ | ⟨-, -, contents, hlookup, rfl⟩⟩ := enter_eq_ok_iff.mp hq
  · exact h
  · exact h.leave
  · exact ⟨hlookup, h⟩

theorem IsIn.foldlM_enter {names : List String} (h : p.IsIn root)
    (hq : names.foldlM Place.enter p = .ok q) : q.IsIn root := by
  induction names generalizing p with
  | nil =>
    cases hq
    exact h
  | cons name names ih =>
    rw [List.foldlM_cons, bind_eq_ok_iff] at hq
    obtain ⟨next, hnext, hq⟩ := hq
    exact ih (h.enter hnext) hq

end Place

/-! ### Services -/

namespace FileSystem

variable {fs made written : FileSystem} {path : String} {place : Place}

/-- What is at the end of a route. -/
def kindAt (fs : FileSystem) (route : List String) : Option Kind :=
  (Entry.folder fs.root).kindAt route

/-- There is a folder in which the program runs. -/
def HasWorking (fs : FileSystem) : Prop := fs.kindAt [workingName] = some .folder

theorem isIn_startOf (h : fs.HasWorking) (path : String) : (fs.startOf path).IsIn fs.root := by
  obtain ⟨contents, hlookup⟩ := Entry.kindAt_singleton_eq_folder.mp h
  rw [startOf]
  split
  · rfl
  · refine ⟨?_, rfl⟩
    rw [working, Folder.inner, hlookup]

theorem isIn_of_follow (h : fs.HasWorking) (hplace : fs.follow path = .ok place) :
    place.IsIn fs.root :=
  (isIn_startOf h path).foldlM_enter hplace

theorem isIn_of_locate (h : fs.HasWorking) {last : String}
    (hplace : fs.locate path = .ok (place, last)) : place.IsIn fs.root := by
  simp only [locate, bind_eq_ok_iff, return_eq_ok_iff, Prod.mk.injEq] at hplace
  obtain ⟨-, -, found, hfound, -, -, rfl, -⟩ := hplace
  exact (isIn_startOf h path).foldlM_enter hfound

/-- Folders have been added, and nothing else has changed. -/
def Extends (fs made : FileSystem) : Prop := ∀ route, made.kindAt route = fs.kindAt route ∨
  fs.kindAt route = none ∧ made.kindAt route = some .folder

theorem Extends.refl (fs : FileSystem) : Extends fs fs := fun _ => .inl rfl

theorem Extends.trans (h : Extends fs made) (h' : Extends made written) : Extends fs written := by
  intro route
  rcases h route with hsame | ⟨hnone, hfolder⟩
  · rcases h' route with hsame' | ⟨hnone', hfolder'⟩
    · exact .inl (hsame'.trans hsame)
    · exact .inr ⟨hsame ▸ hnone', hfolder'⟩
  · rcases h' route with hsame' | ⟨hnone', -⟩
    · exact .inr ⟨hnone, hsame'.trans hfolder⟩
    · rw [hfolder] at hnone'
      cases hnone'

/-- What was there before is there as it was. -/
theorem Extends.kindAt_eq (h : Extends fs made) {route : List String} {kind : Kind}
    (hkind : fs.kindAt route = some kind) : made.kindAt route = some kind := by
  rcases h route with hsame | ⟨hnone, -⟩
  · exact hsame.trans hkind
  · rw [hnone] at hkind
    cases hkind

/-- What is at the end of a path is not there yet where a folder is made. -/
theorem extends_createFolder (h : fs.HasWorking) (hmade : fs.createFolder path = .ok made) :
    Extends fs made := by
  rw [createFolder, check_bind_eq_ok_iff, bind_eq_ok_iff] at hmade
  obtain ⟨-, ⟨place, name⟩, hplace, hmade⟩ := hmade
  have hin := isIn_of_locate h hplace
  dsimp only at hmade
  split at hmade
  · cases hmade
  · next hentry =>
    cases hmade
    have hname := Place.lookup_eq_none_of_entry_eq_none hentry
    intro route
    have hold : ∀ contents, place.contents.lookup name ≠ some (.folder contents) := by simp [hname]
    have hnew : ∀ first rest, (Entry.folder []).kindAt (first :: rest) = none := fun _ _ => rfl
    have hroute := hin.kindAt_rootWith hold hnew route
    by_cases heq : route = place.route ++ [name]
    · rw [if_pos heq] at hroute
      refine .inr ⟨?_, hroute⟩
      rw [heq, kindAt, hin.kindAt_route, Entry.kindAt_folder_cons, hname]
      rfl
    · rw [if_neg heq] at hroute
      exact .inl hroute

theorem Extends.hasWorking (h : Extends fs made) (hworking : fs.HasWorking) : made.HasWorking :=
  h.kindAt_eq hworking

theorem run_ensureFolder (fs : FileSystem) (path : String) :
    (host.ensureFolder path).run fs =
      match fs.createFolder path with
      | .ok made => (.ok (), made)
      | .error e => (if fs.isFolder path then .ok () else .error e, fs) := by
  change (change (·.createFolder path) >>= _).run fs = _
  rw [StateT.run_bind, run_change]
  cases fs.createFolder path with
  | ok made => rfl
  | error e =>
    change (if fs.isFolder path = true then pure (Except.ok ()) else pure (Except.error e) :
      StateM FileSystem (Except HostError Unit)).run fs = _
    split <;> rfl

theorem extends_ensureFolder (h : fs.HasWorking) (path : String) :
    Extends fs ((host.ensureFolder path).run fs).2 := by
  rw [run_ensureFolder]
  cases hmade : fs.createFolder path with
  | ok made => exact extends_createFolder h hmade
  | error e => exact .refl fs

/-- A step after another one, which may look at how that ended. -/
theorem Extends.bind {α β : Type} {x : StateM FileSystem α} {f : α → StateM FileSystem β}
    (h : fs.HasWorking) (hx : Extends fs (x.run fs).2)
    (hf : ∀ a made, Extends fs made → made.HasWorking → Extends made ((f a).run made).2) :
    Extends fs ((x >>= f).run fs).2 :=
  hx.trans (hf _ _ hx (hx.hasWorking h))

theorem extends_createFoldersWithin (h : fs.HasWorking) (path : String) (names : List String) :
    Extends fs ((host.createFoldersWithin path names).run fs).2 := by
  induction names generalizing fs path with
  | nil => exact extends_ensureFolder h path
  | cons name rest ih =>
    refine .bind h (extends_ensureFolder h path) fun result made hmade hworking => ?_
    cases result with
    | ok _ => exact .refl made
    | error e =>
      dsimp only
      split
      · refine .bind hworking (ih hworking _) fun result made hmade hworking => ?_
        cases result with
        | ok _ => exact extends_ensureFolder hworking path
        | error e => exact .refl made
      · exact .refl made

/-- **Making folders adds folders.** Nothing else changes, and what is made before it fails is
folders, too. -/
theorem extends_createFolders (h : fs.HasWorking) (path : String) :
    Extends fs ((host.createFolders path).run fs).2 := by
  rw [Host.createFolders]
  split
  · exact .refl fs
  · exact extends_createFoldersWithin h path _

/-! ### Paths that still lead somewhere -/

/-- Every folder of the one file system is one of the other, at the end of the same route. -/
def KeepsFolders (fs written : FileSystem) : Prop :=
  ∀ route, fs.kindAt route = some .folder → written.kindAt route = some .folder

/-- A name that leads on still does so where no folder is gone. -/
theorem KeepsFolders.enter (h : KeepsFolders fs written) {p q p' : Place} {name : String}
    (hp : p.IsIn fs.root) (hp' : p'.IsIn written.root) (hroute : p'.route = p.route)
    (hq : p.enter name = .ok q) : ∃ q', p'.enter name = .ok q' ∧ q'.route = q.route := by
  simp only [Place.enter_eq_ok_iff] at hq ⊢
  obtain ⟨hshort, hq⟩ := hq
  rcases hq with ⟨hstays, rfl⟩ | ⟨hstays, hleads, rfl⟩ | ⟨hstays, hleads, contents, hlookup, rfl⟩
  · exact ⟨p', ⟨hshort, .inl ⟨hstays, rfl⟩⟩, hroute⟩
  · refine ⟨p'.leave, ⟨hshort, .inr (.inl ⟨hstays, hleads, rfl⟩)⟩, ?_⟩
    rw [Place.route_leave, Place.route_leave, hroute]
  · have hfolder : fs.kindAt (p.route ++ [name]) = some .folder := by
      rw [kindAt, hp.kindAt_route]
      exact Entry.kindAt_singleton_eq_folder.mpr ⟨contents, hlookup⟩
    have hfolder' := h _ hfolder
    rw [← hroute, kindAt, hp'.kindAt_route] at hfolder'
    obtain ⟨contents', hlookup'⟩ := Entry.kindAt_singleton_eq_folder.mp hfolder'
    refine ⟨_, ⟨hshort, .inr (.inr ⟨hstays, hleads, contents', hlookup', rfl⟩)⟩, ?_⟩
    rw [Place.route_within, Place.route_within]
    exact congrArg (· ++ [name]) hroute

theorem KeepsFolders.foldlM_enter (h : KeepsFolders fs written) {p q p' : Place}
    {names : List String} (hp : p.IsIn fs.root) (hp' : p'.IsIn written.root)
    (hroute : p'.route = p.route) (hq : names.foldlM Place.enter p = .ok q) :
    ∃ q', names.foldlM Place.enter p' = .ok q' ∧ q'.route = q.route := by
  induction names generalizing p p' with
  | nil =>
    cases hq
    exact ⟨p', rfl, hroute⟩
  | cons name names ih =>
    rw [List.foldlM_cons, bind_eq_ok_iff] at hq
    obtain ⟨next, hnext, hq⟩ := hq
    obtain ⟨next', hnext', hroute⟩ := h.enter hp hp' hroute hnext
    obtain ⟨q', hq', hroute⟩ := ih (hp.enter hnext) (hp'.enter hnext') hroute hq
    exact ⟨q', List.foldlM_cons.trans (bind_eq_ok_iff.mpr ⟨next', hnext', hq'⟩), hroute⟩

theorem route_startOf (fs written : FileSystem) (path : String) :
    (written.startOf path).route = (fs.startOf path).route := by
  rw [startOf, startOf]
  split <;> rfl

/-- The path of a folder still leads to the end of the same route. -/
theorem KeepsFolders.follow (h : KeepsFolders fs written) (hworking : fs.HasWorking)
    (hplace : fs.follow path = .ok place) :
    ∃ place', written.follow path = .ok place' ∧ place'.IsIn written.root ∧
      place'.route = place.route := by
  have hworking' : written.HasWorking := h _ hworking
  obtain ⟨place', hplace', hroute⟩ := h.foldlM_enter (isIn_startOf hworking path)
    (isIn_startOf hworking' path) (route_startOf fs written path) hplace
  exact ⟨place', hplace', isIn_of_follow hworking' hplace', hroute⟩

end FileSystem

/-! ### Files -/

open CommandLine (pathIn)

namespace IsFileName

variable {name folder : String} {fs written : FileSystem} {bytes : List UInt8}

/-- **What is where once a file has been written.** The file is at the end of the route of its
folder and its name, where no folder was, and what is at the end of any other route stays. -/
theorem kindAt_write (h : IsFileName name) (hworking : fs.HasWorking)
    (hwritten : fs.write (pathIn folder name) bytes = .ok written) :
    ∃ place, fs.follow folder = .ok place ∧ fs.kindAt (place.route ++ [name]) ≠ some .folder ∧
      ∀ route, written.kindAt route =
        if route = place.route ++ [name] then some (.file bytes) else fs.kindAt route := by
  obtain ⟨-, -, place, hplace, hfolder, rfl⟩ := h.write_pathIn_iff.mp hwritten
  have hin := FileSystem.isIn_of_follow hworking hplace
  refine ⟨place, hplace, ?_, hin.kindAt_rootWith hfolder fun _ _ => rfl⟩
  rw [FileSystem.kindAt, hin.kindAt_route, ne_eq, Entry.kindAt_singleton_eq_folder, not_exists]
  exact hfolder

theorem keepsFolders_write (h : IsFileName name) (hworking : fs.HasWorking)
    (hwritten : fs.write (pathIn folder name) bytes = .ok written) : fs.KeepsFolders written := by
  obtain ⟨place, -, hnew, hkind⟩ := h.kindAt_write hworking hwritten
  intro route hroute
  rw [hkind, if_neg, hroute]
  rintro rfl
  exact hnew hroute

/-- A file that has been written is read from its path. -/
theorem read_write (h : IsFileName name) (hworking : fs.HasWorking)
    (hwritten : fs.write (pathIn folder name) bytes = .ok written) :
    written.read (pathIn folder name) = .ok bytes := by
  obtain ⟨hlong, hshort, -⟩ := h.write_pathIn_iff.mp hwritten
  obtain ⟨place, hplace, -, hkind⟩ := h.kindAt_write hworking hwritten
  obtain ⟨place', hplace', hin, hroute⟩ :=
    (h.keepsFolders_write hworking hwritten).follow hworking hplace
  have hfile : (Entry.folder place'.contents).kindAt [name] = some (.file bytes) := by
    rw [← hin.kindAt_route, hroute]
    exact (hkind _).trans (if_pos rfl)
  rw [FileSystem.read, bind_eq_ok_iff]
  refine ⟨(place', name), h.locate_pathIn_iff.mpr ⟨hlong, hshort, hplace', rfl⟩, ?_⟩
  dsimp only
  rw [h.entry?_eq, Entry.kindAt_singleton_eq_file.mp hfile]
  rfl

end IsFileName

end Solids
