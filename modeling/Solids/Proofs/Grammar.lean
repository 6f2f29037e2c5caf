import Solids.Proofs.NumberValue
import Solids.Proofs.Steps
import Solids.Recipe.Measure
import Solids.Recipe.Validation
/-!
# Solids.Proofs.Grammar

**The grammar of recipe documents**, and that the reader accepts just what it allows.

Main definitions:

* `Json.Field`, `Json.OptionalField` — a field that must be there, or may be left out;
* `Json.IsNode`, `Json.IsRecipe` — the grammar, as relations between a value and what it denotes.

Main statement: `Recipe.ofJson_eq_ok_iff`.

Design points:

* The grammar speaks of the value of a number, and the reader of its double. A node gets the double.
* A value denotes at most one recipe. Fields that the grammar does not name are free.
* The grammar has no limit for nodes. The limit for levels is part of `Json.IsRecipe`, and is met by
  the reader on the way down.
-/

namespace Solids

/-! ### Values and fields -/

namespace Json

/-- A vector is an array of exactly three numbers. -/
inductive IsVector : Json → Vec3 Double → Prop where
  /-- Any three numbers will do. -/
  | numbers (x y z : Number) :
      IsVector (.array [.number x, .number y, .number z]) ⟨x.toDouble, y.toDouble, z.toDouble⟩

/-- A length is a number above zero. -/
inductive IsLength : Json → Double → Prop where
  /-- It does not matter how the number is written. -/
  | number {n : Number} : 0 < n.value → IsLength (.number n) n.toDouble

/-- A number of segments is an integer from one up to what 32 bits hold. -/
inductive IsSegments : Json → UInt32 → Prop where
  /-- It does not matter how the integer is written. -/
  | number {n : Number} {count : UInt32} : n.value = count.toNat → 1 ≤ count.toNat →
      IsSegments (.number n) count

/-- A text stands for itself. -/
inductive IsText : Json → String → Prop where
  /-- Any text will do. -/
  | string (text : String) : IsText (.string text) text

/-- The names of units. -/
inductive IsUnits : Json → Units → Prop where
  /-- Millimeters. -/
  | mm : IsUnits (.string "mm") .mm
  /-- Centimeters. -/
  | cm : IsUnits (.string "cm") .cm
  /-- Meters. -/
  | m : IsUnits (.string "m") .m

variable {α : Type}

/-- A field that must be there. -/
def Field (v : Json) (key : String) (denotes : Json → α → Prop) (a : α) : Prop :=
  ∃ w, v.get? key = some w ∧ denotes w a

/-- A field that may be left out. A `null` is not left out. -/
def OptionalField (v : Json) (key : String) (denotes : Json → α → Prop) : Option α → Prop
  | some a => v.Field key denotes a
  | none => v.get? key = none

/-- The field that tells the type of a node. -/
def HasType (v : Json) (name : String) : Prop := v.get? "type" = some (.string name)

/-! ### Nodes and recipes -/

/-- The shapes. -/
inductive IsShape (v : Json) : Shape Double → Prop where
  /-- A box. -/
  | cuboid {size : Vec3 Double} {center : Option (Vec3 Double)} : v.HasType "cuboid" →
      v.Field "size" IsVector size → v.OptionalField "center" IsVector center →
      IsShape v (.cuboid size center)
  /-- A ball. -/
  | sphere {radius : Double} {center : Option (Vec3 Double)} {segments : Option UInt32} :
      v.HasType "sphere" → v.Field "radius" IsLength radius →
      v.OptionalField "center" IsVector center → v.OptionalField "segments" IsSegments segments →
      IsShape v (.sphere radius center segments)
  /-- A cylinder. -/
  | cylinder {height radius : Double} {center : Option (Vec3 Double)} {segments : Option UInt32} :
      v.HasType "cylinder" → v.Field "height" IsLength height → v.Field "radius" IsLength radius →
      v.OptionalField "center" IsVector center → v.OptionalField "segments" IsSegments segments →
      IsShape v (.cylinder height radius center segments)

/-- The combinations. -/
inductive IsCombination (v : Json) : Combination → Prop where
  /-- All children together. -/
  | union : v.HasType "union" → IsCombination v .union
  /-- The first child without the others. -/
  | subtract : v.HasType "subtract" → IsCombination v .subtract
  /-- What all children have in common. -/
  | intersect : v.HasType "intersect" → IsCombination v .intersect

/-- The motions. -/
inductive IsMotion (v : Json) : Motion Double → Prop where
  /-- A move by an offset. -/
  | translate {offset : Vec3 Double} : v.HasType "translate" → v.Field "offset" IsVector offset →
      IsMotion v (.translate offset)
  /-- A turn. -/
  | rotate {angles : Vec3 Double} : v.HasType "rotate" → v.Field "angles" IsVector angles →
      IsMotion v (.rotate angles)
  /-- A stretch. -/
  | scale {factors : Vec3 Double} : v.HasType "scale" → v.Field "factors" IsVector factors →
      IsMotion v (.scale factors)

/-- The nodes. -/
inductive IsNode : Json → Node Double → Prop where
  /-- A shape. -/
  | shape {v : Json} {s : Shape Double} : v.IsShape s → IsNode v (.shape s)
  /-- A combination, which has at least one child. -/
  | combine {v : Json} {combination : Combination} {items : List Json}
      {children : List (Node Double)} : v.IsCombination combination →
      v.get? "children" = some (.array items) → items ≠ [] → List.Forall₂ IsNode items children →
      IsNode v (.combine combination children)
  /-- A motion, which has one child. -/
  | move {v w : Json} {motion : Motion Double} {child : Node Double} : v.IsMotion motion →
      v.get? "child" = some w → IsNode w child → IsNode v (.move motion child)

/-- The documents. -/
structure IsRecipe (v : Json) (r : Recipe Double) : Prop where
  /-- The version is a number equal to one. -/
  version : ∃ n : Number, v.get? "version" = some (.number n) ∧ n.value = 1
  /-- There is only this version. -/
  version_eq : r.version = 1
  /-- Lengths are in millimeters if there is no unit. -/
  units : ∃ units, v.OptionalField "units" IsUnits units ∧ r.units = units.getD .mm
  /-- A name is a text. -/
  name : v.OptionalField "name" IsText r.name
  /-- The solid is a node. -/
  root : v.Field "root" IsNode r.root
  /-- There are at most 60 levels of nodes. -/
  levels : r.root.levels ≤ 60

end Json

namespace Json

theorem HasType.exists_eq_object {v : Json} {name : String} (h : v.HasType name) :
    ∃ fields, v = .object fields := by
  cases v with
  | object fields => exact ⟨fields, rfl⟩
  | _ => cases h

/-- A node has the type of what it denotes. -/
theorem IsNode.hasType {v : Json} {n : Node Double} (h : v.IsNode n) : v.HasType n.kind := by
  cases h with
  | shape hs => cases hs <;> assumption
  | combine hc => cases hc <;> assumption
  | move hm => cases hm <;> assumption

end Json

/-! ### Readers of values -/

/-- A reader accepts the values that denote something, and gives what they denote. -/
def Reads {α : Type} (read : Path → Json → Except ValidationError α)
    (denotes : Json → α → Prop) : Prop :=
  ∀ path v a, read path v = .ok a ↔ denotes v a

namespace Json

variable {path : Path} {v : Json}

theorem expectObject_eq_ok_iff {fields : List (String × Json)} :
    v.expectObject path = .ok fields ↔ v = .object fields := by
  cases v <;> simp [expectObject]

theorem expectArray_eq_ok_iff {items : List Json} :
    v.expectArray path = .ok items ↔ v = .array items := by
  cases v <;> simp [expectArray]

theorem expectString_eq_ok_iff {text : String} :
    v.expectString path = .ok text ↔ v = .string text := by
  cases v <;> simp [expectString]

theorem expectNumber_eq_ok_iff {n : Number} : v.expectNumber path = .ok n ↔ v = .number n := by
  cases v <;> simp [expectNumber]

theorem expectDouble_eq_ok_iff {x : Double} :
    v.expectDouble path = .ok x ↔ ∃ n : Number, v = .number n ∧ n.toDouble = x := by
  simp only [expectDouble, bind_eq_ok_iff, expectNumber_eq_ok_iff, Number.isFinite_toDouble,
    if_true, return_eq_ok_iff]

theorem reads_expectString : Reads (fun path v => v.expectString path) IsText := by
  intro path v text
  rw [expectString_eq_ok_iff]
  exact ⟨fun h => h ▸ .string text, fun h => by cases h; rfl⟩

theorem reads_expectVec3 : Reads (fun path v => v.expectVec3 path) IsVector := by
  intro path v a
  simp only [expectVec3, bind_eq_ok_iff, expectArray_eq_ok_iff]
  constructor
  · rintro ⟨items, rfl, h⟩
    split at h
    · simp only [bind_eq_ok_iff, expectDouble_eq_ok_iff, return_eq_ok_iff] at h
      obtain ⟨_, ⟨x, rfl, rfl⟩, _, ⟨y, rfl, rfl⟩, _, ⟨z, rfl, rfl⟩, rfl⟩ := h
      exact .numbers x y z
    · cases h
  · rintro ⟨x, y, z⟩
    refine ⟨_, rfl, ?_⟩
    simp only [bind_eq_ok_iff, expectDouble_eq_ok_iff, return_eq_ok_iff]
    exact ⟨_, ⟨x, rfl, rfl⟩, _, ⟨y, rfl, rfl⟩, _, ⟨z, rfl, rfl⟩, rfl⟩

theorem reads_expectPositive : Reads (fun path v => v.expectPositive path) IsLength := by
  intro path v a
  simp only [expectPositive, bind_eq_ok_iff, expectDouble_eq_ok_iff]
  constructor
  · rintro ⟨_, ⟨n, rfl, rfl⟩, h⟩
    split at h
    · next hpos =>
      cases h
      exact .number (n.zero_lt_toDouble_iff.mp hpos)
    · cases h
  · rintro ⟨hpos⟩
    exact ⟨_, ⟨_, rfl, rfl⟩, if_pos ((Number.zero_lt_toDouble_iff _).mpr hpos)⟩

theorem reads_expectSegments : Reads (fun path v => v.expectSegments path) IsSegments := by
  intro path v count
  simp only [expectSegments, bind_eq_ok_iff, expectDouble_eq_ok_iff, Nat.pow_eq]
  constructor
  · rintro ⟨_, ⟨n, rfl, rfl⟩, h⟩
    split at h
    · next k hnatural =>
      split at h
      · next hrange =>
        cases h
        -- 32 bits are well below `2 ^ 53`, so the double tells the integer from all others
        have hk : k.toUInt32.toNat = k := UInt32.toNat_ofNat_of_lt' hrange.2
        have hvalue := (n.natural?_toDouble (by omega)).mp hnatural
        exact .number (by rw [hvalue, hk]) (by rw [hk]; exact hrange.1)
      · cases h
    · cases h
  · rintro ⟨hvalue, hpos⟩
    have hlt := count.toNat_lt
    have hnatural := (Number.natural?_toDouble _ (by omega)).mpr hvalue
    refine ⟨_, ⟨_, rfl, rfl⟩, ?_⟩
    simp only [hnatural]
    rw [if_pos ⟨hpos, hlt⟩]
    simp [return_eq_ok_iff]

end Json

theorem Recipe.reads_readUnits : Reads Recipe.readUnits Json.IsUnits := by
  intro path v units
  simp only [readUnits, bind_eq_ok_iff, Json.expectString_eq_ok_iff]
  constructor
  · rintro ⟨name, rfl, h⟩
    split at h
    · next u hname =>
      cases h
      obtain rfl : units.name = name := by simpa using List.find?_some hname
      cases units
      exacts [.mm, .cm, .m]
    · cases h
  · rintro (_ | _ | _)
    all_goals exact ⟨_, rfl, rfl⟩

/-! ### Readers of objects -/

namespace PlacedObject

variable {α : Type} {o : PlacedObject} {key : String}
  {read : Path → Json → Except ValidationError α} {denotes : Json → α → Prop}

/-- The object itself. -/
def json (o : PlacedObject) : Json := .object o.fields

theorem required_eq_ok_iff {w : Json} : o.required key = .ok w ↔ o.json.get? key = some w := by
  unfold required json
  rw [Json.get?_object]
  cases Json.field? o.fields key <;> simp

theorem get_eq_ok_iff (h : Reads read denotes) {a : α} :
    o.get key read = .ok a ↔ o.json.Field key denotes a := by
  simp only [get, bind_eq_ok_iff, required_eq_ok_iff, h _ _ a, Json.Field]

theorem getOptional_eq_ok_iff (h : Reads read denotes) {a : Option α} :
    o.getOptional key read = .ok a ↔ o.json.OptionalField key denotes a := by
  unfold getOptional
  cases hfield : Json.field? o.fields key <;> cases a <;>
    simp [Json.OptionalField, Json.Field, json, hfield, map_eq_ok_iff, h _ _ _]

theorem center_eq_ok_iff {center : Option (Vec3 Double)} :
    o.center = .ok center ↔ o.json.OptionalField "center" Json.IsVector center :=
  getOptional_eq_ok_iff Json.reads_expectVec3

theorem segments_eq_ok_iff {segments : Option UInt32} :
    o.segments = .ok segments ↔ o.json.OptionalField "segments" Json.IsSegments segments :=
  getOptional_eq_ok_iff Json.reads_expectSegments

variable {s : Shape Double}

theorem cuboid_eq_ok_iff : o.cuboid = .ok s ↔ ∃ size, o.json.Field "size" Json.IsVector size ∧
    ∃ center, o.json.OptionalField "center" Json.IsVector center ∧ .cuboid size center = s := by
  simp only [cuboid, bind_eq_ok_iff, get_eq_ok_iff Json.reads_expectVec3, center_eq_ok_iff,
    return_eq_ok_iff]

theorem sphere_eq_ok_iff :
    o.sphere = .ok s ↔ ∃ radius, o.json.Field "radius" Json.IsLength radius ∧
      ∃ center, o.json.OptionalField "center" Json.IsVector center ∧
      ∃ segments, o.json.OptionalField "segments" Json.IsSegments segments ∧
        .sphere radius center segments = s := by
  simp only [sphere, bind_eq_ok_iff, get_eq_ok_iff Json.reads_expectPositive, center_eq_ok_iff,
    segments_eq_ok_iff, return_eq_ok_iff]

theorem cylinder_eq_ok_iff :
    o.cylinder = .ok s ↔ ∃ height, o.json.Field "height" Json.IsLength height ∧
      ∃ radius, o.json.Field "radius" Json.IsLength radius ∧
      ∃ center, o.json.OptionalField "center" Json.IsVector center ∧
      ∃ segments, o.json.OptionalField "segments" Json.IsSegments segments ∧
        .cylinder height radius center segments = s := by
  simp only [cylinder, bind_eq_ok_iff, get_eq_ok_iff Json.reads_expectPositive, center_eq_ok_iff,
    segments_eq_ok_iff, return_eq_ok_iff]

end PlacedObject

/-! ### Readers of nodes -/

namespace Node

open PlacedObject

theorem itemsFrom_eq_ok_iff {α : Type} {read : Path → Json → Except ValidationError α}
    {denotes : Json → α → Prop} (h : Reads read denotes) {path : Path} {i : ℕ} {items : List Json}
    {as : List α} : itemsFrom read path i items = .ok as ↔ List.Forall₂ denotes items as := by
  induction items generalizing i as with
  | nil => cases as <;> simp [itemsFrom]
  | cons item rest ih =>
    simp only [itemsFrom, bind_eq_ok_iff, h _ _ _, ih, return_eq_ok_iff]
    constructor
    · rintro ⟨a, ha, others, hothers, rfl⟩
      exact .cons ha hothers
    · intro h
      cases h with
      | cons ha hothers => exact ⟨_, ha, _, hothers, rfl⟩

/-- Nodes none of which has too many levels. -/
theorem forall₂_levels_iff {R : Json → Node Double → Prop} {levels : ℕ} {items : List Json}
    {children : List (Node Double)} :
    List.Forall₂ (fun v n => R v n ∧ n.levels ≤ levels) items children ↔
      List.Forall₂ R items children ∧ levelsOfAll children ≤ levels := by
  induction items generalizing children with
  | nil => cases children <;> simp [levelsOfAll]
  | cons item rest ih =>
    cases children with
    | nil => simp
    | cons n others =>
      simp only [List.forall₂_cons, ih, levelsOfAll, max_le_iff]
      tauto

variable {o : PlacedObject} {read : Path → Json → Except ValidationError (Node Double)}
  {levels : ℕ} {n : Node Double}

/-- A reader of the nodes that do not have too many levels. -/
def ReadsWithin (levels : ℕ) (read : Path → Json → Except ValidationError (Node Double)) : Prop :=
  Reads read fun v n => v.IsNode n ∧ n.levels ≤ levels

theorem childrenOf_eq_ok_iff (h : ReadsWithin levels read) {children : List (Node Double)} :
    childrenOf o read = .ok children ↔ ∃ items, o.json.get? "children" = some (.array items) ∧
      items ≠ [] ∧ List.Forall₂ Json.IsNode items children ∧ levelsOfAll children ≤ levels := by
  simp only [childrenOf, PlacedObject.get, bind_eq_ok_iff, required_eq_ok_iff,
    Json.expectArray_eq_ok_iff]
  constructor
  · rintro ⟨v, hfield, items, rfl, hitems⟩
    split at hitems
    · cases hitems
    · next hne =>
      rw [itemsFrom_eq_ok_iff h, forall₂_levels_iff] at hitems
      exact ⟨items, hfield, by simpa using hne, hitems⟩
  · rintro ⟨items, hfield, hne, hitems⟩
    refine ⟨_, hfield, items, rfl, ?_⟩
    rw [if_neg (by simpa using hne), itemsFrom_eq_ok_iff h, forall₂_levels_iff]
    exact hitems

theorem combinationOf_eq_ok_iff (h : ReadsWithin levels read) {combination : Combination} :
    combinationOf o combination read = .ok n ↔ ∃ children,
      (∃ items, o.json.get? "children" = some (.array items) ∧ items ≠ [] ∧
        List.Forall₂ Json.IsNode items children ∧ levelsOfAll children ≤ levels) ∧
      .combine combination children = n := by
  simp only [combinationOf, bind_eq_ok_iff, childrenOf_eq_ok_iff h, return_eq_ok_iff]

theorem motionOf_eq_ok_iff (h : ReadsWithin levels read) {key : String}
    {motion : Vec3 Double → Motion Double} : motionOf o key motion read = .ok n ↔
      ∃ vector, o.json.Field key Json.IsVector vector ∧
      ∃ child, o.json.Field "child" (fun v n => v.IsNode n ∧ n.levels ≤ levels) child ∧
        .move (motion vector) child = n := by
  simp only [motionOf, bind_eq_ok_iff, get_eq_ok_iff Json.reads_expectVec3, get_eq_ok_iff h,
    return_eq_ok_iff]

/-- Only nodes of the grammar are read. -/
theorem isNode_of_ofKind (h : ReadsWithin levels read) {kind : String}
    (htype : o.json.HasType kind) (hread : ofKind kind o read = .ok n) :
    o.json.IsNode n ∧ n.levels ≤ levels + 1 := by
  have combined {combination : Combination} (hcombination : o.json.IsCombination combination)
      (hread : combinationOf o combination read = .ok n) :
      o.json.IsNode n ∧ n.levels ≤ levels + 1 := by
    obtain ⟨children, ⟨items, hfield, hne, hitems, hlevels⟩, rfl⟩ :=
      (combinationOf_eq_ok_iff h).mp hread
    exact ⟨.combine hcombination hfield hne hitems, Nat.succ_le_succ hlevels⟩
  have moved {key : String} {motion : Vec3 Double → Motion Double}
      (hmotion : ∀ vector, o.json.Field key Json.IsVector vector → o.json.IsMotion (motion vector))
      (hread : motionOf o key motion read = .ok n) : o.json.IsNode n ∧ n.levels ≤ levels + 1 := by
    obtain ⟨vector, hvector, child, ⟨w, hfield, hchild, hlevels⟩, rfl⟩ :=
      (motionOf_eq_ok_iff h).mp hread
    exact ⟨.move (hmotion vector hvector) hfield hchild, Nat.succ_le_succ hlevels⟩
  unfold ofKind at hread
  split at hread
  case h_1 =>
    obtain ⟨s, hs, rfl⟩ := map_eq_ok_iff.mp hread
    obtain ⟨size, hsize, center, hcenter, rfl⟩ := cuboid_eq_ok_iff.mp hs
    exact ⟨.shape (.cuboid htype hsize hcenter), Nat.le_add_left 1 levels⟩
  case h_2 =>
    obtain ⟨s, hs, rfl⟩ := map_eq_ok_iff.mp hread
    obtain ⟨radius, hradius, center, hcenter, segments, hsegments, rfl⟩ := sphere_eq_ok_iff.mp hs
    exact ⟨.shape (.sphere htype hradius hcenter hsegments), Nat.le_add_left 1 levels⟩
  case h_3 =>
    obtain ⟨s, hs, rfl⟩ := map_eq_ok_iff.mp hread
    obtain ⟨height, hheight, radius, hradius, center, hcenter, segments, hsegments, rfl⟩ :=
      cylinder_eq_ok_iff.mp hs
    exact ⟨.shape (.cylinder htype hheight hradius hcenter hsegments), Nat.le_add_left 1 levels⟩
  case h_4 => exact combined (.union htype) hread
  case h_5 => exact combined (.subtract htype) hread
  case h_6 => exact combined (.intersect htype) hread
  case h_7 => exact moved (fun _ => .translate htype) hread
  case h_8 => exact moved (fun _ => .rotate htype) hread
  case h_9 => exact moved (fun _ => .scale htype) hread
  case h_10 => cases hread

/-- All nodes of the grammar are read. -/
theorem ofKind_of_isNode (h : ReadsWithin levels read) (hnode : o.json.IsNode n)
    (hlevels : n.levels ≤ levels + 1) :
    ofKind n.kind o read = .ok n := by
  cases hnode with
  | shape hs =>
    cases hs with
    | cuboid _ hsize hcenter =>
      exact map_eq_ok_iff.mpr ⟨_, cuboid_eq_ok_iff.mpr ⟨_, hsize, _, hcenter, rfl⟩, rfl⟩
    | sphere _ hradius hcenter hsegments =>
      refine map_eq_ok_iff.mpr ⟨_, sphere_eq_ok_iff.mpr ?_, rfl⟩
      exact ⟨_, hradius, _, hcenter, _, hsegments, rfl⟩
    | cylinder _ hheight hradius hcenter hsegments =>
      refine map_eq_ok_iff.mpr ⟨_, cylinder_eq_ok_iff.mpr ?_, rfl⟩
      exact ⟨_, hheight, _, hradius, _, hcenter, _, hsegments, rfl⟩
  | @combine _ _ _ children hcombination hfield hne hitems =>
    have hread (c : Combination) : combinationOf o c read = .ok (.combine c children) :=
      (combinationOf_eq_ok_iff h).mpr
        ⟨_, ⟨_, hfield, hne, hitems, Nat.le_of_succ_le_succ hlevels⟩, rfl⟩
    cases hcombination with
    | union => exact hread .union
    | subtract => exact hread .subtract
    | intersect => exact hread .intersect
  | @move _ _ _ child hmotion hfield hchild =>
    have hread {key : String} {vector : Vec3 Double} (motion : Vec3 Double → Motion Double)
        (hvector : o.json.Field key Json.IsVector vector) :
        motionOf o key motion read = .ok (.move (motion vector) child) :=
      (motionOf_eq_ok_iff h).mpr
        ⟨_, hvector, _, ⟨_, hfield, hchild, Nat.le_of_succ_le_succ hlevels⟩, rfl⟩
    cases hmotion with
    | translate _ hvector => exact hread .translate hvector
    | rotate _ hvector => exact hread .rotate hvector
    | scale _ hvector => exact hread .scale hvector

theorem levels_pos (n : Node Double) : 0 < n.levels := by
  rw [levels_eq]
  exact Nat.succ_pos _

/-- The reader accepts the nodes of the grammar that do not have too many levels. -/
theorem readsWithin_ofJsonWithin (levels : ℕ) : ReadsWithin levels (ofJsonWithin levels) := by
  induction levels with
  | zero =>
    intro path v n
    exact iff_of_false nofun fun h => absurd h.2 n.levels_pos.not_ge
  | succ levels ih =>
    intro path v n
    simp only [ofJsonWithin, bind_eq_ok_iff, Json.expectObject_eq_ok_iff,
      get_eq_ok_iff Json.reads_expectString]
    constructor
    · rintro ⟨fields, rfl, kind, ⟨_, htype, ⟨_⟩⟩, hread⟩
      exact isNode_of_ofKind ih htype hread
    · rintro ⟨hnode, hlevels⟩
      obtain ⟨fields, rfl⟩ := hnode.hasType.exists_eq_object
      have hread : ofKind n.kind ⟨fields, path⟩ (ofJsonWithin levels) = .ok n :=
        ofKind_of_isNode ih hnode hlevels
      exact ⟨fields, rfl, n.kind, ⟨_, hnode.hasType, .string _⟩, hread⟩

end Node

/-! ### The reader of recipes -/

namespace Recipe

open PlacedObject

theorem reads_checkVersion :
    Reads checkVersion fun v _ => ∃ n : Number, v = .number n ∧ n.value = 1 := by
  intro path v _
  unfold checkVersion
  split
  · next n =>
    have hvalue := n.natural?_eq_some_iff 1
    rw [Nat.cast_one] at hvalue
    simp [recipeVersion, hvalue]
  · next hno => exact iff_of_false nofun fun ⟨n, hn, _⟩ => hno n hn

theorem reads_nodeOfJson : Reads Node.ofJson fun v n => v.IsNode n ∧ n.levels ≤ 60 :=
  Node.readsWithin_ofJsonWithin maxLevels

/-- Only recipes of the grammar are read. -/
theorem isRecipe_of_ofJson {v : Json} {r : Recipe Double} (h : ofJson v = .ok r) :
    v.IsRecipe r := by
  simp only [ofJson, bind_eq_ok_iff, Json.expectObject_eq_ok_iff, get_eq_ok_iff reads_checkVersion,
    getOptional_eq_ok_iff reads_readUnits, getOptional_eq_ok_iff Json.reads_expectString,
    get_eq_ok_iff reads_nodeOfJson, return_eq_ok_iff] at h
  obtain ⟨fields, rfl, _, ⟨_, hfield, n, rfl, hversion⟩, units, hunits, name, hname, root,
    ⟨w, hroot, hnode, hlevels⟩, rfl⟩ := h
  exact ⟨⟨n, hfield, hversion⟩, rfl, ⟨units, hunits, rfl⟩, hname, ⟨w, hroot, hnode⟩, hlevels⟩

/-- All recipes of the grammar are read. -/
theorem ofJson_of_isRecipe {v : Json} {r : Recipe Double} (h : v.IsRecipe r) :
    ofJson v = .ok r := by
  obtain ⟨⟨n, hfield, hversion⟩, hnumber, ⟨units, hunits, hname⟩, htext, ⟨w, hroot, hnode⟩,
    hlevels⟩ := h
  obtain ⟨fields, rfl⟩ : ∃ fields, v = .object fields := by
    cases v with
    | object fields => exact ⟨fields, rfl⟩
    | _ => cases hfield
  simp only [ofJson, bind_eq_ok_iff, Json.expectObject_eq_ok_iff, get_eq_ok_iff reads_checkVersion,
    getOptional_eq_ok_iff reads_readUnits, getOptional_eq_ok_iff Json.reads_expectString,
    get_eq_ok_iff reads_nodeOfJson, return_eq_ok_iff]
  refine ⟨fields, rfl, (), ⟨_, hfield, n, rfl, hversion⟩, units, hunits, _, htext, _,
    ⟨w, hroot, hnode, hlevels⟩, ?_⟩
  cases r
  cases hnumber
  cases hname
  rfl

/-- **The reader accepts the grammar.** Whatever the value, it is read as a recipe if and only if
it denotes this recipe. -/
theorem ofJson_eq_ok_iff (v : Json) (r : Recipe Double) : ofJson v = .ok r ↔ v.IsRecipe r :=
  ⟨isRecipe_of_ofJson, ofJson_of_isRecipe⟩

end Recipe

end Solids
