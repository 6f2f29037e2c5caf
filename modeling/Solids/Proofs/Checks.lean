import Solids.Proofs.Postorder
import Solids.Proofs.Slots
import Solids.Proofs.Truthful
/-!
# Solids.Proofs.Checks

**The places of a document are checked in an order**, which is that of the slots and not that of the
fields. An object is checked before its fields, an array before its items, and a node as a whole
before what comes after it.

Main definitions:

* `Check` — a place, and what is expected there;
* `Recipe.checks` — the checks of a document in their order;
* `Recipe.CheckedBefore` — one place is checked before another;
* `Follows` — a reader fails for the first of some checks that fails.

Main statements:

* `Recipe.follows_ofJson` — the reader of documents follows their checks;
* `Recipe.ordered_checks` — no place is inside of one that is checked later.
-/

namespace Solids

/-- The error of something that failed. -/
def failure? {ε α : Type} : Except ε α → Option ε
  | .ok _ => none
  | .error e => some e

theorem failure?_eq_none_iff {ε α : Type} {x : Except ε α} :
    failure? x = none ↔ ∃ a, x = .ok a := by
  cases x <;> simp [failure?]

theorem failure?_eq_some_iff {ε α : Type} {x : Except ε α} {e : ε} :
    failure? x = some e ↔ x = .error e := by
  cases x <;> simp [failure?]

/-- If this fails, then at this place. -/
def FailsAt {α : Type} (path : Path) (x : Except ValidationError α) : Prop :=
  ∀ e, x = .error e → e.path = path

section FailsAt

variable {α β : Type} {path : Path} {x : Except ValidationError α}

theorem FailsAt.ok (a : α) : FailsAt path (.ok a) := nofun

theorem FailsAt.error (cause : Mismatch) :
    FailsAt path (.error ⟨path, cause⟩ : Except ValidationError α) := by
  rintro _ ⟨⟩
  rfl

theorem FailsAt.bind {f : α → Except ValidationError β} (hx : FailsAt path x)
    (hf : ∀ a, FailsAt path (f a)) : FailsAt path (x >>= f) := by
  cases x with
  | error e => exact fun e' he => hx e' (by cases he; rfl)
  | ok a => exact hf a

end FailsAt

namespace Json

variable (path : Path) (v : Json)

theorem failsAt_expectObject : FailsAt path (v.expectObject path) := by
  cases v <;> first | exact .ok _ | exact .error _

theorem failsAt_expectString : FailsAt path (v.expectString path) := by
  cases v <;> first | exact .ok _ | exact .error _

theorem failsAt_expectDouble : FailsAt path (v.expectDouble path) := by
  have hnumber : FailsAt path (v.expectNumber path) := by
    cases v <;> first | exact .ok _ | exact .error _
  refine hnumber.bind fun n => ?_
  rw [if_pos n.isFinite_toDouble]
  exact .ok _

theorem failsAt_expectPositive : FailsAt path (v.expectPositive path) := by
  refine (failsAt_expectDouble path v).bind fun x => ?_
  split
  · exact .ok _
  · exact .error _

theorem failsAt_expectSegments : FailsAt path (v.expectSegments path) := by
  refine (failsAt_expectDouble path v).bind fun x => ?_
  split
  · split
    · exact .ok _
    · exact .error _
  · exact .error _

theorem failsAt_checkVersion : FailsAt path (Recipe.checkVersion path v) := by
  unfold Recipe.checkVersion
  split
  · split
    · exact .ok _
    · exact .error _
  · exact .error _

theorem failsAt_readUnits : FailsAt path (Recipe.readUnits path v) := by
  refine (failsAt_expectString path v).bind fun name => ?_
  split
  · exact .ok _
  · exact .error _

end Json

/-! ### Checks -/

namespace Expected

/-- The names of the types of nodes. -/
def types : List String :=
  ["cuboid", "sphere", "cylinder", "union", "subtract", "intersect", "translate", "rotate", "scale"]

/-- The value is what is expected, taken by itself. -/
def Accepts (v : Json) : Expected → Prop
  | .object => ∃ fields, v = .object fields
  | .noNode => False
  | .version => ∃ n : Number, v = .number n ∧ n.value = 1
  | .units => ∃ u, v.IsUnits u
  | .text => ∃ text, v = .string text
  | .nodeType => ∃ name ∈ types, v = .string name
  | .triple => ∃ x y z, v = .array [x, y, z]
  | .number => ∃ n, v = .number n
  | .length => ∃ x, v.IsLength x
  | .segments => ∃ count, v.IsSegments count
  | .items => ∃ item rest, v = .array (item :: rest)

/-- What is reported of a value that is not what is expected at its place. -/
def error? (path : Path) (v : Json) : Expected → Option ValidationError
  | .object => failure? (v.expectObject path)
  | .noNode => some ⟨path, .tooDeep⟩
  | .version => failure? (Recipe.checkVersion path v)
  | .units => failure? (Recipe.readUnits path v)
  | .text => failure? (v.expectString path)
  | .nodeType =>
    match v with
    | .string name => if name ∈ types then none else some ⟨path, .unknownNodeType name⟩
    | _ => some ⟨path, .expectedString⟩
  | .triple =>
    match v with
    | .array list => if list.length = 3 then none else some ⟨path, .wrongArity list.length⟩
    | _ => some ⟨path, .expectedArray⟩
  | .number => failure? (v.expectDouble path)
  | .length => failure? (v.expectPositive path)
  | .segments => failure? (v.expectSegments path)
  | .items =>
    match v with
    | .array list => if list.isEmpty then some ⟨path, .emptyChildren⟩ else none
    | _ => some ⟨path, .expectedArray⟩

variable {path : Path} {v : Json}

theorem error?_version_eq_none_iff :
    error? path v .version = none ↔ ∃ n : Number, v = .number n ∧ n.value = 1 := by
  cases v with
  | number n =>
    have hvalue : n.natural? = some recipeVersion ↔ n.value = 1 :=
      (n.natural?_eq_some_iff 1).trans (by rw [Nat.cast_one])
    rw [error?, Recipe.checkVersion]
    by_cases hversion : n.natural? = some recipeVersion
    · rw [if_pos hversion]
      exact ⟨fun _ => ⟨n, rfl, hvalue.mp hversion⟩, fun _ => rfl⟩
    · rw [if_neg hversion]
      constructor
      · intro h
        cases h
      · rintro ⟨_, ⟨⟩, hone⟩
        exact absurd (hvalue.mpr hone) hversion
  | _ =>
    constructor
    · intro h
      cases h
    · rintro ⟨_, ⟨⟩, -⟩

/-- Nothing is reported of a value just if it is what is expected. -/
theorem error?_eq_none_iff (expected : Expected) :
    expected.error? path v = none ↔ expected.Accepts v := by
  cases expected with
  | object => simp [error?, Accepts, failure?_eq_none_iff, Json.expectObject_eq_ok_iff]
  | noNode => exact ⟨nofun, nofun⟩
  | version => exact error?_version_eq_none_iff
  | units => simp only [error?, Accepts, failure?_eq_none_iff, Recipe.reads_readUnits path v _]
  | text => simp [error?, Accepts, failure?_eq_none_iff, Json.expectString_eq_ok_iff]
  | nodeType => cases v <;> simp [error?, Accepts]
  | triple => cases v <;> simp [error?, Accepts, List.length_eq_three]
  | number => simp [error?, Accepts, failure?_eq_none_iff, Json.expectDouble_eq_ok_iff]
  | length =>
    simp only [error?, Accepts, failure?_eq_none_iff, Json.reads_expectPositive path v _]
  | segments =>
    simp only [error?, Accepts, failure?_eq_none_iff, Json.reads_expectSegments path v _]
  | items => cases v <;> simp [error?, Accepts, List.ne_nil_iff_exists_cons]

/-- What is reported is reported from the place of the value. -/
theorem path_of_error? {expected : Expected} {e : ValidationError}
    (h : expected.error? path v = some e) : e.path = path := by
  have hreader {α : Type} {x : Except ValidationError α} (hx : FailsAt path x)
      (hfailure : failure? x = some e) : e.path = path := hx e (failure?_eq_some_iff.mp hfailure)
  cases expected with
  | object => exact hreader (Json.failsAt_expectObject path v) h
  | noNode =>
    cases h
    rfl
  | version => exact hreader (Json.failsAt_checkVersion path v) h
  | units => exact hreader (Json.failsAt_readUnits path v) h
  | text => exact hreader (Json.failsAt_expectString path v) h
  | number => exact hreader (Json.failsAt_expectDouble path v) h
  | length => exact hreader (Json.failsAt_expectPositive path v) h
  | segments => exact hreader (Json.failsAt_expectSegments path v) h
  | nodeType | triple | items =>
    simp only [error?] at h
    split at h
    · split at h <;> cases h
      rfl
    · cases h
      rfl

end Expected

/-- A place of a document and what is expected there. -/
structure Check where
  /-- The place. -/
  path : Path
  /-- What is expected. -/
  expected : Expected
  /-- What is wrong if there is nothing. -/
  absent : Option Mismatch

namespace Check

/-- What is at the place is what is expected, or there is nothing and nothing is needed. -/
def IsAccepted (d : Json) (c : Check) : Prop :=
  match d.at? c.path with
  | some v => c.expected.Accepts v
  | none => c.absent = none

/-- What is reported of the place, taken by itself. -/
def error? (d : Json) (c : Check) : Option ValidationError :=
  match d.at? c.path with
  | some v => c.expected.error? c.path v
  | none => c.absent.map (ValidationError.mk c.path)

theorem error?_eq_none_iff {d : Json} {c : Check} : c.error? d = none ↔ c.IsAccepted d := by
  unfold error? IsAccepted
  cases d.at? c.path with
  | some v => exact Expected.error?_eq_none_iff _
  | none => simp

theorem path_of_error? {d : Json} {c : Check} {e : ValidationError} (h : c.error? d = some e) :
    e.path = c.path := by
  unfold error? at h
  split at h
  · exact Expected.path_of_error? h
  · obtain ⟨_, -, rfl⟩ := Option.map_eq_some_iff.mp h
    rfl

end Check

/-! ### The order -/

/-- How many items there are at a place. -/
def Json.itemCount (d : Json) (place : Path) : ℕ :=
  match d.at? place with
  | some (.array items) => items.length
  | _ => 0

/-- The numbers of a vector. -/
def Json.components (d : Json) (place : Path) : List Check :=
  if d.itemCount place = 3 then
    (List.range 3).map fun i => ⟨place.index i, .number, none⟩
  else []

/-- The nodes in an array, one after the other; `below` gives the checks of a node. -/
def Json.itemChecks (d : Json) (below : Path → Option Mismatch → List Check) (place : Path) :
    List Check :=
  (List.range (d.itemCount place)).flatMap fun i => below (place.index i) none

/-- The checks of what is under a key. The value comes before its parts. -/
def SlotContent.checks (d : Json) (below : Path → Option Mismatch → List Check) (place : Path)
    (absent : Option Mismatch) : SlotContent → List Check
  | .single expected => [⟨place, expected, absent⟩]
  | .vector => ⟨place, .triple, absent⟩ :: d.components place
  | .node => below place absent
  | .nodes => ⟨place, .items, absent⟩ :: d.itemChecks below place

/-- The checks of a field. -/
def Slot.checks (d : Json) (below : Path → Option Mismatch → List Check) (path : Path) (s : Slot) :
    List Check :=
  s.content.checks d below (path.key s.key)
    (if s.optional then none else some (.missingField s.key))

/-- The checks of an object, and then those of its fields. -/
def Json.objectChecks (d : Json) (below : Path → Option Mismatch → List Check)
    (slots : List (String × Json) → List Slot) (path : Path) (absent : Option Mismatch) :
    List Check :=
  ⟨path, .object, absent⟩ ::
    match d.at? path with
    | some (.object fields) => (slots fields).flatMap (Slot.checks d below path)
    | _ => []

/-- The checks of a node that may have so many levels. -/
def Node.checks (d : Json) : ℕ → Path → Option Mismatch → List Check
  | 0, path, absent => [⟨path, .noNode, absent⟩]
  | levels + 1, path, absent => d.objectChecks (Node.checks d levels) Slot.ofNode path absent

/-- The checks of a document. -/
def Recipe.checks (d : Json) : List Check :=
  d.objectChecks (Node.checks d maxLevels) (fun _ => Slot.ofDocument) .document none

/-! ### Readers that follow checks -/

/-- The reader fails for the first of the checks that fails, and succeeds if none does. -/
def Follows {α : Type} (d : Json) (x : Except ValidationError α) (checks : List Check) : Prop :=
  checks.findSome? (Check.error? d) = failure? x

section Follows

variable {α β : Type} {d : Json} {x : Except ValidationError α} {c : Check}
  {checks checks' : List Check}

theorem Follows.ok (a : α) : Follows d (.ok a : Except ValidationError α) [] := rfl

theorem Follows.bind {f : α → Except ValidationError β} (hx : Follows d x checks)
    (hf : ∀ a, x = .ok a → Follows d (f a) checks') : Follows d (x >>= f) (checks ++ checks') := by
  unfold Follows at *
  rw [List.findSome?_append, hx]
  cases x with
  | error e => rfl
  | ok a => exact hf a rfl

theorem Follows.map {f : α → β} (hx : Follows d x checks) : Follows d (f <$> x) checks := by
  unfold Follows at *
  rw [hx]
  cases x <;> rfl

/-- Once the first check has failed the others do not matter. -/
theorem Follows.of_error {e : ValidationError} (h : c.error? d = some e) :
    Follows d (.error e : Except ValidationError α) (c :: checks) := by
  unfold Follows
  rw [List.findSome?_cons, h]
  rfl

theorem Follows.of_none (h : c.error? d = none) (hx : Follows d x checks) :
    Follows d x (c :: checks) := by
  unfold Follows at *
  rw [List.findSome?_cons, h]
  exact hx

end Follows

/-- Where there is nothing, no more is reported than that. -/
def ReportsAbsence (d : Json) (below : Path → Option Mismatch → List Check) : Prop :=
  ∀ place absent, d.at? place = none → (below place absent).findSome? (Check.error? d) =
    absent.map (ValidationError.mk place)

namespace Json

variable {d v : Json} {place : Path} {absent : Option Mismatch}
  {below : Path → Option Mismatch → List Check}

theorem error?_of_at? (h : d.at? place = some v) (expected : Expected) (absent : Option Mismatch) :
    Check.error? d ⟨place, expected, absent⟩ = expected.error? place v := by
  rw [Check.error?, h]

theorem error?_of_absent {expected : Expected} (h : d.at? place = none) :
    Check.error? d ⟨place, expected, absent⟩ = absent.map (ValidationError.mk place) := by
  rw [Check.error?, h]

/-- A reader of a single value follows its check. -/
theorem follows_single {α : Type} {x : Except ValidationError α} {expected : Expected}
    (h : d.at? place = some v) (hx : expected.error? place v = failure? x) :
    Follows d x [⟨place, expected, absent⟩] := by
  rw [Follows, List.findSome?_singleton, error?_of_at? h, hx]

theorem at?_key_eq_none {fields : List (String × Json)} {path : Path} {key : String}
    (h : d.at? path = some (.object fields)) (hfield : field? fields key = none) :
    d.at? (path.key key) = none := by
  rw [at?, h]
  exact hfield

theorem reportsAbsence_checks (hbelow : ReportsAbsence d below) (content : SlotContent) :
    ReportsAbsence d fun place absent => content.checks d below place absent := by
  intro place absent h
  cases content with
  | single expected =>
    simp only [SlotContent.checks, List.findSome?_singleton, error?_of_absent h]
  | vector =>
    have hcount : d.itemCount place = 0 := by rw [itemCount, h]
    simp [SlotContent.checks, components, hcount, List.findSome?_singleton, error?_of_absent h]
  | node => exact hbelow place absent h
  | nodes =>
    have hcount : d.itemCount place = 0 := by rw [itemCount, h]
    simp [SlotContent.checks, itemChecks, hcount, List.findSome?_singleton, error?_of_absent h]

theorem follows_expectVec3 (h : d.at? place = some v) :
    Follows d (v.expectVec3 place) (SlotContent.vector.checks d below place absent) := by
  have hcheck := error?_of_at? h .triple absent
  have hitem (i : ℕ) (w : Json) (hw : v.item? i = some w) :
      Follows d (w.expectDouble (place.index i)) [⟨place.index i, .number, none⟩] :=
    follows_single (at?_index h hw) rfl
  cases v with
  | array items =>
    by_cases hlength : items.length = 3
    · obtain ⟨x, y, z, rfl⟩ := List.length_eq_three.mp hlength
      have hcomponents : d.components place =
          [⟨place.index 0, .number, none⟩] ++ ([⟨place.index 1, .number, none⟩] ++
            ([⟨place.index 2, .number, none⟩] ++ [])) := by
        rw [components, itemCount, h]
        rfl
      rw [SlotContent.checks, hcomponents]
      refine .of_none hcheck ?_
      exact (hitem 0 x rfl).bind fun _ _ => (hitem 1 y rfl).bind fun _ _ =>
        (hitem 2 z rfl).bind fun _ _ => .ok _
    · have herror : expectVec3 place (.array items) = .error ⟨place, .wrongArity items.length⟩ := by
        simp only [expectVec3, expectArray, bind, Except.bind]
        split
        · exact absurd rfl hlength
        · rfl
      rw [herror]
      exact .of_error (hcheck.trans (if_neg hlength))
  | _ => exact .of_error hcheck

end Json

namespace PlacedObject

open Json

variable {α : Type} {d : Json} {fields : List (String × Json)} {path : Path} {content : SlotContent}
  {key : String} {read : Path → Json → Except ValidationError α}
  {below : Path → Option Mismatch → List Check}

/-- A reader of fields follows the checks of the field if the reader of its value does. -/
theorem follows_get (hat : d.at? path = some (.object fields)) (hbelow : ReportsAbsence d below)
    (hread : ∀ v, field? fields key = some v → Follows d (read (path.key key) v)
      (content.checks d below (path.key key) (some (.missingField key)))) :
    Follows d ((PlacedObject.mk fields path).get key read)
      (Slot.checks d below path ⟨key, content, false⟩) := by
  unfold PlacedObject.get required
  dsimp only
  cases hfield : field? fields key with
  | none => exact reportsAbsence_checks hbelow content _ _ (at?_key_eq_none hat hfield)
  | some v => exact hread v hfield

theorem follows_getOptional (hat : d.at? path = some (.object fields))
    (hbelow : ReportsAbsence d below)
    (hread : ∀ v, field? fields key = some v → Follows d (read (path.key key) v)
      (content.checks d below (path.key key) none)) :
    Follows d ((PlacedObject.mk fields path).getOptional key read)
      (Slot.checks d below path ⟨key, content, true⟩) := by
  unfold getOptional
  dsimp only
  cases hfield : field? fields key with
  | none => exact reportsAbsence_checks hbelow content _ _ (at?_key_eq_none hat hfield)
  | some v => exact (hread v hfield).map

variable (hat : d.at? path = some (.object fields)) (hbelow : ReportsAbsence d below)

include hat hbelow

theorem follows_vector (key : String) : Follows d
    ((PlacedObject.mk fields path).get key fun path v => v.expectVec3 path)
    (Slot.checks d below path ⟨key, .vector, false⟩) :=
  follows_get hat hbelow fun _ hfield => follows_expectVec3 (at?_key hat hfield)

theorem follows_length (key : String) : Follows d
    ((PlacedObject.mk fields path).get key fun path v => v.expectPositive path)
    (Slot.checks d below path ⟨key, .single .length, false⟩) :=
  follows_get hat hbelow fun _ hfield => follows_single (at?_key hat hfield) rfl

theorem follows_center : Follows d (PlacedObject.mk fields path).center
    (Slot.checks d below path ⟨"center", .vector, true⟩) :=
  follows_getOptional hat hbelow fun _ hfield => follows_expectVec3 (at?_key hat hfield)

theorem follows_segments : Follows d (PlacedObject.mk fields path).segments
    (Slot.checks d below path ⟨"segments", .single .segments, true⟩) :=
  follows_getOptional hat hbelow fun _ hfield => follows_single (at?_key hat hfield) rfl

theorem follows_cuboid : Follows d (PlacedObject.mk fields path).cuboid
    ((Slot.ofType "cuboid").flatMap (Slot.checks d below path)) :=
  (follows_vector hat hbelow "size").bind fun _ _ =>
    (follows_center hat hbelow).bind fun _ _ => .ok _

theorem follows_sphere : Follows d (PlacedObject.mk fields path).sphere
    ((Slot.ofType "sphere").flatMap (Slot.checks d below path)) :=
  (follows_length hat hbelow "radius").bind fun _ _ =>
    (follows_center hat hbelow).bind fun _ _ =>
      (follows_segments hat hbelow).bind fun _ _ => .ok _

theorem follows_cylinder : Follows d (PlacedObject.mk fields path).cylinder
    ((Slot.ofType "cylinder").flatMap (Slot.checks d below path)) :=
  (follows_length hat hbelow "height").bind fun _ _ =>
    (follows_length hat hbelow "radius").bind fun _ _ =>
      (follows_center hat hbelow).bind fun _ _ =>
        (follows_segments hat hbelow).bind fun _ _ => .ok _

end PlacedObject

namespace Json

variable {α : Type} {d v : Json} {path : Path} {absent : Option Mismatch}
  {below : Path → Option Mismatch → List Check} {slots : List (String × Json) → List Slot}

theorem reportsAbsence_objectChecks :
    ReportsAbsence d fun path absent => d.objectChecks below slots path absent := by
  intro path absent h
  simp only [objectChecks, h, List.findSome?_singleton, error?_of_absent h]

theorem follows_expectObject {f : List (String × Json) → Except ValidationError α}
    (hat : d.at? path = some v) (hf : ∀ fields, v = .object fields →
      Follows d (f fields) ((slots fields).flatMap (Slot.checks d below path))) :
    Follows d (v.expectObject path >>= f) (d.objectChecks below slots path absent) := by
  have hcheck := error?_of_at? hat .object absent
  cases v with
  | object fields =>
    rw [objectChecks, hat]
    exact .of_none hcheck (hf fields rfl)
  | _ => exact .of_error hcheck

end Json

namespace Node

open Json PlacedObject

variable {d : Json} {fields : List (String × Json)} {path : Path}
  {read : Path → Json → Except ValidationError (Node Double)}
  {below : Path → Option Mismatch → List Check}

theorem follows_itemsFrom {place : Path} {items : List Json} (k : ℕ)
    (hread : ∀ i w, items[i]? = some w →
      Follows d (read (place.index (k + i)) w) (below (place.index (k + i)) none)) :
    Follows d (itemsFrom read place k items)
      ((List.range' k items.length).flatMap fun i => below (place.index i) none) := by
  induction items generalizing k with
  | nil => exact .ok _
  | cons item rest ih =>
    rw [List.length_cons, List.range'_succ, List.flatMap_cons]
    refine (hread 0 item rfl).bind fun _ _ => ?_
    rw [← List.append_nil (List.flatMap _ _)]
    refine (ih (k + 1) fun i w hw => ?_).bind fun _ _ => .ok _
    have hlater := hread (i + 1) w hw
    rwa [show k + (i + 1) = k + 1 + i by omega] at hlater

variable (hat : d.at? path = some (.object fields)) (hbelow : ReportsAbsence d below)
  (hread : ∀ place w absent, d.at? place = some w → Follows d (read place w) (below place absent))

include hat hbelow hread

theorem follows_childrenOf : Follows d (childrenOf ⟨fields, path⟩ read)
    (Slot.checks d below path ⟨"children", .nodes, false⟩) := by
  refine follows_get hat hbelow fun v hfield => ?_
  have hchildren := at?_key hat hfield
  have hcheck := error?_of_at? hchildren .items (some (.missingField "children"))
  cases v with
  | array items =>
    by_cases hempty : items.isEmpty
    · obtain rfl := List.isEmpty_iff.mp hempty
      exact .of_error hcheck
    · refine .of_none (hcheck.trans (if_neg hempty)) ?_
      rw [itemChecks, itemCount, hchildren]
      dsimp only [expectArray, bind, Except.bind]
      rw [if_neg hempty, List.range_eq_range']
      refine follows_itemsFrom 0 fun i w hw => hread _ w none ?_
      rw [Nat.zero_add]
      exact at?_index hchildren hw
  | _ => exact .of_error hcheck

theorem follows_combinationOf (combination : Combination) :
    Follows d (combinationOf ⟨fields, path⟩ combination read)
      ([⟨"children", .nodes, false⟩].flatMap (Slot.checks d below path)) :=
  (follows_childrenOf hat hbelow hread).bind fun _ _ => .ok _

theorem follows_motionOf (key : String) (motion : Vec3 Double → Motion Double) :
    Follows d (motionOf ⟨fields, path⟩ key motion read)
      ([⟨key, .vector, false⟩, ⟨"child", .node, false⟩].flatMap (Slot.checks d below path)) := by
  refine (follows_vector hat hbelow key).bind fun _ _ => ?_
  refine Follows.bind ?_ fun _ _ => .ok _
  exact follows_get hat hbelow fun w hfield => hread _ w _ (at?_key hat hfield)

theorem follows_ofKind {kind : String} (h : kind ∈ Expected.types) :
    Follows d (ofKind kind ⟨fields, path⟩ read)
      ((Slot.ofType kind).flatMap (Slot.checks d below path)) := by
  unfold ofKind
  split
  case h_1 => exact (follows_cuboid hat hbelow).map
  case h_2 => exact (follows_sphere hat hbelow).map
  case h_3 => exact (follows_cylinder hat hbelow).map
  case h_4 => exact follows_combinationOf hat hbelow hread _
  case h_5 => exact follows_combinationOf hat hbelow hread _
  case h_6 => exact follows_combinationOf hat hbelow hread _
  case h_7 => exact follows_motionOf hat hbelow hread _ _
  case h_8 => exact follows_motionOf hat hbelow hread _ _
  case h_9 => exact follows_motionOf hat hbelow hread _ _
  case h_10 => simp_all [Expected.types]

/-- The type comes first, and decides what else there is. -/
theorem follows_type : Follows d
    (((PlacedObject.mk fields path).get "type" fun path v => v.expectString path) >>= fun kind =>
      ofKind kind ⟨fields, path⟩ read)
    ((Slot.ofNode fields).flatMap (Slot.checks d below path)) := by
  rw [Slot.ofNode, List.flatMap_cons]
  show Follows d _ (⟨path.key "type", .nodeType, some (.missingField "type")⟩ :: _)
  unfold PlacedObject.get required
  dsimp only
  cases hfield : field? fields "type" with
  | none => exact .of_error (error?_of_absent (at?_key_eq_none hat hfield))
  | some v =>
    have hcheck := error?_of_at? (at?_key hat hfield) .nodeType (some (.missingField "type"))
    cases v with
    | string name =>
      by_cases hname : name ∈ Expected.types
      · exact .of_none (hcheck.trans (if_pos hname)) (follows_ofKind hat hbelow hread hname)
      · have hunknown : ofKind name ⟨fields, path⟩ read =
            .error ⟨path.key "type", .unknownNodeType name⟩ := by
          unfold ofKind
          split <;> first | rfl | exact absurd (by decide) hname
        show Follows d (ofKind name ⟨fields, path⟩ read) _
        rw [hunknown]
        exact .of_error (hcheck.trans (if_neg hname))
    | _ => exact .of_error hcheck

omit hat hbelow hread

theorem reportsAbsence_checks (levels : ℕ) : ReportsAbsence d (Node.checks d levels) := by
  intro place absent h
  cases levels with
  | zero => rw [Node.checks, List.findSome?_singleton, error?_of_absent h]
  | succ levels => exact reportsAbsence_objectChecks place absent h

/-- The reader of nodes follows their checks. -/
theorem follows_ofJsonWithin (levels : ℕ) (place : Path) (v : Json) (absent : Option Mismatch)
    (h : d.at? place = some v) :
    Follows d (ofJsonWithin levels place v) (Node.checks d levels place absent) := by
  induction levels generalizing place v absent with
  | zero => exact follows_single h rfl
  | succ levels ih =>
    refine follows_expectObject h fun fields hfields => ?_
    subst hfields
    exact follows_type h (reportsAbsence_checks levels) ih

end Node

namespace Recipe

open Json PlacedObject

/-- The reader of documents follows their checks. -/
theorem follows_ofJson (d : Json) : Follows d (ofJson d) (checks d) := by
  refine follows_expectObject rfl fun fields hfields => ?_
  have hat : d.at? .document = some (.object fields) := congrArg some hfields
  have hbelow := Node.reportsAbsence_checks (d := d) maxLevels
  refine (follows_get hat hbelow fun v hfield =>
    follows_single (at?_key hat hfield) rfl).bind fun _ _ => ?_
  refine (follows_getOptional hat hbelow fun v hfield =>
    follows_single (at?_key hat hfield) rfl).bind fun _ _ => ?_
  refine (follows_getOptional hat hbelow fun v hfield =>
    follows_single (at?_key hat hfield) rfl).bind fun _ _ => ?_
  refine (follows_get hat hbelow fun v hfield => ?_).bind fun _ _ => .ok _
  exact Node.follows_ofJsonWithin maxLevels _ v _ (at?_key hat hfield)

end Recipe

/-! ### Places in order -/

/-- All checks are inside of one place, and no place is inside of a later one. -/
structure Ordered (place : Path) (checks : List Check) : Prop where
  /-- All are inside of the place. -/
  within : ∀ c ∈ checks, place.Within c.path
  /-- What is checked later does not hold what was checked before. -/
  inOrder : checks.Pairwise fun b c => ¬ c.path.Within b.path

section Ordered

variable {place : Path}

/-- A place is checked, and then the parts of it. -/
theorem Ordered.of_parts {ι : Type} {parts : List ι} (part : ι → Path) {f : ι → List Check}
    (hparts : ∀ a ∈ parts, place.Within (part a) ∧ (part a).length = place.length + 1)
    (hdistinct : parts.Pairwise fun a b => part a ≠ part b)
    (hf : ∀ a ∈ parts, Ordered (part a) (f a)) (expected : Expected) (absent : Option Mismatch) :
    Ordered place (⟨place, expected, absent⟩ :: parts.flatMap f) := by
  have hinside : ∀ c ∈ parts.flatMap f, place.Within c.path ∧ ¬ c.path.Within place := by
    intro c hc
    obtain ⟨a, ha, hc⟩ := List.mem_flatMap.mp hc
    have hwithin := (hf a ha).within c hc
    refine ⟨(hparts a ha).1.trans hwithin, fun h => ?_⟩
    have hle := (hwithin.trans h).length_le
    have hlength := (hparts a ha).2
    omega
  refine ⟨List.forall_mem_cons.mpr ⟨.refl place, fun c hc => (hinside c hc).1⟩, ?_⟩
  refine List.pairwise_cons.mpr ⟨fun c hc => (hinside c hc).2, ?_⟩
  refine List.pairwise_flatMap.mpr ⟨fun a ha => (hf a ha).inOrder, ?_⟩
  refine hdistinct.imp_of_mem fun {a b} ha hb hne x hx y hy h => hne ?_
  -- both parts would be on the way to one place
  have hlength : (part a).length = (part b).length := by rw [(hparts a ha).2, (hparts b hb).2]
  exact ((hf a ha).within x hx).eq_of_length_eq (((hf b hb).within y hy).trans h) hlength

theorem ordered_single (expected : Expected) (absent : Option Mismatch) :
    Ordered place [⟨place, expected, absent⟩] :=
  ⟨List.forall_mem_singleton.mpr (.refl place), List.pairwise_singleton _ _⟩

theorem ordered_items {n : ℕ} {f : ℕ → List Check} (hf : ∀ i, Ordered (place.index i) (f i))
    (expected : Expected) (absent : Option Mismatch) :
    Ordered place (⟨place, expected, absent⟩ :: (List.range n).flatMap f) :=
  .of_parts place.index (fun i _ => ⟨(Path.Within.refl place).index i, rfl⟩)
    (List.nodup_range.imp fun h heq => h (Path.index.inj heq).2) (fun i _ => hf i) expected absent

end Ordered

section

variable {d : Json} {below : Path → Option Mismatch → List Check}
  (hbelow : ∀ place absent, Ordered place (below place absent))

include hbelow

theorem SlotContent.ordered_checks (content : SlotContent) (place : Path)
    (absent : Option Mismatch) : Ordered place (content.checks d below place absent) := by
  cases content with
  | single expected => exact ordered_single expected absent
  | vector =>
    rw [SlotContent.checks, Json.components]
    split
    · rw [List.map_eq_flatMap]
      exact ordered_items (fun i => ordered_single .number none) .triple absent
    · exact ordered_single .triple absent
  | node => exact hbelow place absent
  | nodes => exact ordered_items (fun i => hbelow (place.index i) none) .items absent

theorem Json.ordered_objectChecks {slots : List (String × Json) → List Slot}
    (hslots : ∀ fields, ((slots fields).map (·.key)).Nodup) (path : Path)
    (absent : Option Mismatch) : Ordered path (d.objectChecks below slots path absent) := by
  rw [Json.objectChecks]
  split
  · next fields _ =>
    refine .of_parts (fun s : Slot => path.key s.key)
      (fun s _ => ⟨(Path.Within.refl path).key s.key, rfl⟩) ?_
      (fun s _ => s.content.ordered_checks hbelow _ _) .object absent
    exact (List.pairwise_map.mp (hslots fields)).imp fun h heq => h (Path.key.inj heq).2
  · exact ordered_single .object absent

end

theorem Node.ordered_checks (d : Json) (levels : ℕ) (place : Path) (absent : Option Mismatch) :
    Ordered place (Node.checks d levels place absent) := by
  induction levels generalizing place absent with
  | zero => exact ordered_single .noNode absent
  | succ levels ih => exact Json.ordered_objectChecks ih Slot.nodup_ofNode place absent

namespace Recipe

theorem ordered_checks (d : Json) : Ordered .document (checks d) :=
  Json.ordered_objectChecks (Node.ordered_checks d maxLevels) (fun _ => by decide) .document none

/-- The places of a document in the order in which they are checked. -/
def places (v : Json) : List Path := (checks v).map (·.path)

/-- The place `p` is checked before `q`. -/
def CheckedBefore (v : Json) (p q : Path) : Prop := [p, q].Sublist (places v)

instance (v : Json) (p q : Path) : Decidable (CheckedBefore v p q) :=
  inferInstanceAs (Decidable ([p, q].Sublist (places v)))

/-- No place is checked twice. -/
theorem nodup_places (v : Json) : (places v).Nodup := by
  refine List.pairwise_map.mpr ((ordered_checks v).inOrder.imp fun {b c} h heq => h ?_)
  rw [heq]
  exact .refl _

/-- The type of a node is checked before its fields, wherever it is. -/
example : (places (.object [("root", .object [("radius", .ofNat 1), ("type", .string "sphere")]),
    ("version", .ofNat 1)])).map Path.text =
    ["$", "$.version", "$.units", "$.name", "$.root", "$.root.type", "$.root.radius",
      "$.root.center", "$.root.segments"] := by
  decide +kernel

end Recipe

end Solids
