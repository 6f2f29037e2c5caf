import Solids.Proofs.Grammar
/-!
# Solids.Proofs.Truthful

**What is reported of a document is true of it.** A document that is no recipe is refused with a
place and a cause. The place is one of the document, and what the cause says holds there.

Main definitions:

* `Json.at?` — the value at a place;
* `Mismatch.IsTrueOf` — what a cause says about a value;
* `Json.IsNodeAt` — the places of nodes, with their levels;
* `ValidationError.IsTrue` — what an error says about a document.

Main statement: `Recipe.isTrue_of_ofJson`.

The readers of a document are followed one by one. Each of them is truthful if it is used where its
value is: `Truthful` says so, for values anywhere in the document and for nodes at some level. Two
causes are not about the value at their place alone, and have rules of their own: a missing field,
where there is no value, and a node that is nested too deeply.
-/

namespace Solids

/-! ### Places -/

namespace Json

/-- The value at a place of a document. -/
def at? (document : Json) : Path → Option Json
  | .document => some document
  | .key parent name => (document.at? parent).bind (·.get? name)
  | .index parent position => (document.at? parent).bind (·.item? position)

/-- The places of the nodes of a document, with their levels. The root is at the first one. -/
inductive IsNodeAt (document : Json) : ℕ → Path → Json → Prop where
  /-- The root. -/
  | root {v : Json} : document.get? "root" = some v → IsNodeAt document 1 .root v
  /-- A child of a combination. -/
  | item {level position : ℕ} {path : Path} {v w : Json} {type : String} {items : List Json} :
      IsNodeAt document level path v → v.HasType type → type ∈ ["union", "subtract", "intersect"] →
      v.get? "children" = some (.array items) → items[position]? = some w →
      IsNodeAt document (level + 1) ((path.key "children").index position) w
  /-- The child of a motion. -/
  | child {level : ℕ} {path : Path} {v w : Json} {type : String} :
      IsNodeAt document level path v → v.HasType type → type ∈ ["translate", "rotate", "scale"] →
      v.get? "child" = some w → IsNodeAt document (level + 1) (path.key "child") w

end Json

/-! ### What errors say -/

/-- What a cause says about a value. -/
inductive Mismatch.IsTrueOf (v : Json) : Mismatch → Prop where
  /-- It is no object. -/
  | expectedObject : (∀ fields, v ≠ .object fields) → IsTrueOf v .expectedObject
  /-- It is no array. -/
  | expectedArray : (∀ items, v ≠ .array items) → IsTrueOf v .expectedArray
  /-- It is no number. -/
  | expectedNumber : (∀ n, v ≠ .number n) → IsTrueOf v .expectedNumber
  /-- It is no string. -/
  | expectedString : (∀ text, v ≠ .string text) → IsTrueOf v .expectedString
  /-- It is an array of so many items, and not of three. -/
  | wrongArity {items : List Json} : v = .array items → items.length ≠ 3 →
      IsTrueOf v (.wrongArity items.length)
  /-- It is the empty array. -/
  | emptyChildren : v = .array [] → IsTrueOf v .emptyChildren
  /-- It is a number that is not above zero. -/
  | notPositive {n : Number} : v = .number n → n.value ≤ 0 → IsTrueOf v (.notPositive n.toDouble)
  /-- It is a number, but not one of the positive integers of 32 bits. -/
  | notPositiveInteger {n : Number} : v = .number n →
      (∀ k : ℕ, 1 ≤ k → k ≤ 4294967295 → n.value ≠ k) → IsTrueOf v (.notPositiveInteger v)
  /-- It is a string, but none of the types of nodes. -/
  | unknownNodeType {name : String} : v = .string name →
      name ∉ ["cuboid", "sphere", "cylinder", "union", "subtract", "intersect", "translate",
        "rotate", "scale"] → IsTrueOf v (.unknownNodeType name)
  /-- It is a string, but none of the units. -/
  | unknownUnits {name : String} : v = .string name → name ∉ ["mm", "cm", "m"] →
      IsTrueOf v (.unknownUnits name)

/-- What an error says about a document. -/
inductive ValidationError.IsTrue (document : Json) : ValidationError → Prop where
  /-- The value at a place is not what it should be. -/
  | value {path : Path} {v : Json} {cause : Mismatch} : document.at? path = some v →
      cause.IsTrueOf v → IsTrue document ⟨path, cause⟩
  /-- The version is not one. -/
  | version {v : Json} : document.get? "version" = some v → (∀ n, v = .number n → n.value ≠ 1) →
      IsTrue document ⟨.key .document "version", .unsupportedVersion v⟩
  /-- An object does not have a field. -/
  | missing {parent : Path} {fields : List (String × Json)} {key : String} :
      document.at? parent = some (.object fields) → Json.field? fields key = none →
      IsTrue document ⟨parent.key key, .missingField key⟩
  /-- A node is at the level after the last one. -/
  | tooDeep {path : Path} {v : Json} : document.at? path = some v →
      document.IsNodeAt 61 path v → IsTrue document ⟨path, .tooDeep⟩

namespace Json

variable {d v w : Json} {path : Path}

theorem at?_key {name : String} (h : d.at? path = some v) (hfield : v.get? name = some w) :
    d.at? (path.key name) = some w := by
  rw [at?, h]
  exact hfield

theorem at?_index {position : ℕ} (h : d.at? path = some v) (hitem : v.item? position = some w) :
    d.at? (path.index position) = some w := by
  rw [at?, h]
  exact hitem

/-- A node is at its place. -/
theorem IsNodeAt.at? {level : ℕ} (h : d.IsNodeAt level path v) : d.at? path = some v := by
  induction h with
  | root hroot => exact at?_key rfl hroot
  | item _ _ _ hchildren hitem ih => exact at?_index (at?_key ih hchildren) hitem
  | child _ _ _ hchild ih => exact at?_key ih hchild

end Json

/-! ### Truthful readers -/

/-- If this fails, then with an error that is true. -/
def Blames {α : Type} (d : Json) (x : Except ValidationError α) : Prop :=
  ∀ e, x = .error e → e.IsTrue d

section Blames

variable {α β : Type} {d : Json} {x : Except ValidationError α}

theorem Blames.ok (a : α) : Blames d (.ok a : Except ValidationError α) := nofun

theorem Blames.error {e : ValidationError} (h : e.IsTrue d) :
    Blames d (.error e : Except ValidationError α) := by
  rintro _ ⟨⟩
  exact h

theorem Blames.bind {f : α → Except ValidationError β} (hx : Blames d x)
    (hf : ∀ a, x = .ok a → Blames d (f a)) : Blames d (x >>= f) := by
  cases x with
  | error e => exact fun e' he => hx e' (by cases he; rfl)
  | ok a => exact hf a rfl

theorem Blames.map {f : α → β} (hx : Blames d x) : Blames d (f <$> x) := by
  cases x with
  | error e => exact fun e' he => hx e' (by cases he; rfl)
  | ok a => exact .ok _

end Blames

/-- The reader is truthful about values that are where they should be. -/
def Truthful {α : Type} (d : Json) (here : Path → Json → Prop)
    (read : Path → Json → Except ValidationError α) : Prop :=
  ∀ path v, here path v → Blames d (read path v)

/-- Values anywhere in a document. -/
def Json.IsAt (d : Json) (path : Path) (v : Json) : Prop := d.at? path = some v

namespace Json

variable {d : Json}

theorem truthful_expectObject : Truthful d d.IsAt fun path v => v.expectObject path := by
  intro path v h
  cases v with
  | object => exact .ok _
  | _ => exact .error (.value h (.expectedObject nofun))

theorem truthful_expectArray : Truthful d d.IsAt fun path v => v.expectArray path := by
  intro path v h
  cases v with
  | array => exact .ok _
  | _ => exact .error (.value h (.expectedArray nofun))

theorem truthful_expectString : Truthful d d.IsAt fun path v => v.expectString path := by
  intro path v h
  cases v with
  | string => exact .ok _
  | _ => exact .error (.value h (.expectedString nofun))

theorem truthful_expectDouble : Truthful d d.IsAt fun path v => v.expectDouble path := by
  intro path v h
  have hnumber : Blames d (v.expectNumber path) := by
    cases v with
    | number => exact .ok _
    | _ => exact .error (.value h (.expectedNumber nofun))
  refine hnumber.bind fun n _ => ?_
  rw [if_pos n.isFinite_toDouble]
  exact .ok _

theorem truthful_expectVec3 : Truthful d d.IsAt fun path v => v.expectVec3 path := by
  intro path v h
  refine (truthful_expectArray path v h).bind fun items hitems => ?_
  obtain rfl := expectArray_eq_ok_iff.mp hitems
  split
  · next x y z =>
    refine (truthful_expectDouble _ x (at?_index h rfl)).bind fun _ _ => ?_
    refine (truthful_expectDouble _ y (at?_index h rfl)).bind fun _ _ => ?_
    refine (truthful_expectDouble _ z (at?_index h rfl)).bind fun _ _ => ?_
    exact .ok _
  · next hno =>
    refine .error (.value h (.wrongArity rfl fun hlength => ?_))
    obtain ⟨x, y, z, rfl⟩ := List.length_eq_three.mp hlength
    exact hno x y z rfl

theorem truthful_expectPositive : Truthful d d.IsAt fun path v => v.expectPositive path := by
  intro path v h
  refine (truthful_expectDouble path v h).bind fun x hx => ?_
  obtain ⟨n, rfl, rfl⟩ := expectDouble_eq_ok_iff.mp hx
  split
  · exact .ok _
  · next hnot =>
    rw [n.zero_lt_toDouble_iff, not_lt] at hnot
    exact .error (.value h (.notPositive rfl hnot))

theorem truthful_expectSegments : Truthful d d.IsAt fun path v => v.expectSegments path := by
  intro path v h
  refine (truthful_expectDouble path v h).bind fun x hx => ?_
  obtain ⟨n, rfl, rfl⟩ := expectDouble_eq_ok_iff.mp hx
  -- both ways to fail say the same: no integer in the range is this number
  have hfault (hno : ∀ k : ℕ, 1 ≤ k → k ≤ 4294967295 → n.toDouble.natural? ≠ some k) :
      Blames d
        (.error ⟨path, .notPositiveInteger (.number n)⟩ : Except ValidationError UInt32) := by
    refine .error (.value h (.notPositiveInteger rfl fun k hlower hupper hvalue => ?_))
    exact hno k hlower hupper ((n.natural?_toDouble (by omega)).mpr hvalue)
  split
  · next k hk =>
    split
    · exact .ok _
    · next hrange =>
      refine hfault fun k' hlower hupper hk' => hrange ?_
      obtain rfl : k = k' := Option.some.inj (hk.symm.trans hk')
      exact ⟨hlower, by rw [Nat.pow_eq]; omega⟩
  · next hnone => exact hfault fun k _ _ hk => by cases hnone.symm.trans hk

end Json

namespace PlacedObject

open Json

variable {α : Type} {d : Json} {o : PlacedObject} {key : String}
  {read : Path → Json → Except ValidationError α}

/-- A field that must be there, wherever it may be. -/
theorem blames_get (h : d.IsAt o.path o.json)
    (hread : ∀ v, o.json.get? key = some v → Blames d (read (o.path.key key) v)) :
    Blames d (o.get key read) := by
  unfold PlacedObject.get required
  cases hfield : field? o.fields key with
  | none => exact .error (.missing h hfield)
  | some v => exact hread v hfield

theorem blames_get_of_truthful (h : d.IsAt o.path o.json) (hread : Truthful d d.IsAt read) :
    Blames d (o.get key read) :=
  blames_get h fun v hfield => hread _ v (at?_key h hfield)

theorem blames_getOptional (h : d.IsAt o.path o.json) (hread : Truthful d d.IsAt read) :
    Blames d (o.getOptional key read) := by
  unfold getOptional
  split
  · next v hfield => exact (hread _ v (at?_key h hfield)).map
  · exact .ok _

theorem blames_center (h : d.IsAt o.path o.json) : Blames d o.center :=
  blames_getOptional h truthful_expectVec3

theorem blames_segments (h : d.IsAt o.path o.json) : Blames d o.segments :=
  blames_getOptional h truthful_expectSegments

theorem blames_cuboid (h : d.IsAt o.path o.json) : Blames d o.cuboid :=
  (blames_get_of_truthful h truthful_expectVec3).bind fun _ _ =>
    (blames_center h).bind fun _ _ => .ok _

theorem blames_sphere (h : d.IsAt o.path o.json) : Blames d o.sphere :=
  (blames_get_of_truthful h truthful_expectPositive).bind fun _ _ =>
    (blames_center h).bind fun _ _ => (blames_segments h).bind fun _ _ => .ok _

theorem blames_cylinder (h : d.IsAt o.path o.json) : Blames d o.cylinder :=
  (blames_get_of_truthful h truthful_expectPositive).bind fun _ _ =>
    (blames_get_of_truthful h truthful_expectPositive).bind fun _ _ =>
      (blames_center h).bind fun _ _ => (blames_segments h).bind fun _ _ => .ok _

end PlacedObject

/-! ### Truthful readers of nodes -/

namespace Node

open Json PlacedObject

variable {d : Json} {o : PlacedObject} {level : ℕ}
  {read : Path → Json → Except ValidationError (Node Double)}

/-- All items are read where they are. -/
theorem blames_itemsFrom {path : Path} {items : List Json} (i : ℕ)
    (hread : ∀ position w, items[position]? = some w →
      Blames d (read (path.index (i + position)) w)) :
    Blames d (itemsFrom read path i items) := by
  induction items generalizing i with
  | nil => exact .ok _
  | cons item rest ih =>
    refine (hread 0 item rfl).bind fun _ _ => ?_
    refine (ih (i + 1) fun position w hw => ?_).bind fun _ _ => .ok _
    have hlater := hread (position + 1) w hw
    rwa [show i + (position + 1) = i + 1 + position by omega] at hlater

variable (hnode : d.IsNodeAt level o.path o.json) (hread : Truthful d (d.IsNodeAt (level + 1)) read)

include hnode hread

theorem blames_combinationOf {type : String} (htype : o.json.HasType type)
    (hmem : type ∈ ["union", "subtract", "intersect"]) (combination : Combination) :
    Blames d (combinationOf o combination read) := by
  have hchildren : Blames d (childrenOf o read) := by
    refine blames_get hnode.at? fun v hfield => ?_
    have hat := at?_key hnode.at? hfield
    refine (truthful_expectArray _ v hat).bind fun items hitems => ?_
    obtain rfl := expectArray_eq_ok_iff.mp hitems
    split
    · next hempty =>
      obtain rfl := List.isEmpty_iff.mp hempty
      exact .error (.value hat (.emptyChildren rfl))
    · refine blames_itemsFrom 0 fun position w hw => ?_
      rw [Nat.zero_add]
      exact hread _ w (.item hnode htype hmem hfield hw)
  exact hchildren.bind fun _ _ => .ok _

theorem blames_motionOf {type : String} (htype : o.json.HasType type)
    (hmem : type ∈ ["translate", "rotate", "scale"]) (key : String)
    (motion : Vec3 Double → Motion Double) : Blames d (motionOf o key motion read) := by
  refine (blames_get_of_truthful hnode.at? truthful_expectVec3).bind fun _ _ => ?_
  refine (blames_get hnode.at? fun v hfield => ?_).bind fun _ _ => .ok _
  exact hread _ v (.child hnode htype hmem hfield)

theorem blames_ofKind {kind : String} (htype : o.json.HasType kind) :
    Blames d (ofKind kind o read) := by
  have hat := hnode.at?
  unfold ofKind
  split
  case h_1 => exact (blames_cuboid hat).map
  case h_2 => exact (blames_sphere hat).map
  case h_3 => exact (blames_cylinder hat).map
  case h_4 => exact blames_combinationOf hnode hread htype (by decide) _
  case h_5 => exact blames_combinationOf hnode hread htype (by decide) _
  case h_6 => exact blames_combinationOf hnode hread htype (by decide) _
  case h_7 => exact blames_motionOf hnode hread htype (by decide) _ _
  case h_8 => exact blames_motionOf hnode hread htype (by decide) _ _
  case h_9 => exact blames_motionOf hnode hread htype (by decide) _ _
  case h_10 h1 h2 h3 h4 h5 h6 h7 h8 h9 =>
    refine .error (.value (at?_key hat htype) (.unknownNodeType rfl ?_))
    simp only [List.mem_cons, List.not_mem_nil, or_false, not_or]
    exact ⟨h1, h2, h3, h4, h5, h6, h7, h8, h9⟩

omit hnode hread

/-- A reader with so many levels left is used at the level that leaves so many. -/
theorem truthful_ofJsonWithin (levels : ℕ) (level : ℕ) (h : level + levels = 61) :
    Truthful d (d.IsNodeAt level) (ofJsonWithin levels) := by
  induction levels generalizing level with
  | zero =>
    intro path v hnode
    -- this node is read with no level left, so it is one level below the last
    obtain rfl : level = 61 := h
    exact .error (.tooDeep hnode.at? hnode)
  | succ levels ih =>
    intro path v hnode
    refine (truthful_expectObject path v hnode.at?).bind fun fields hfields => ?_
    obtain rfl := expectObject_eq_ok_iff.mp hfields
    set o : PlacedObject := ⟨fields, path⟩
    have ho : d.IsNodeAt level o.path o.json := hnode
    refine (blames_get_of_truthful ho.at? truthful_expectString).bind fun kind hkind => ?_
    obtain ⟨w, htype, ⟨_⟩⟩ := (get_eq_ok_iff reads_expectString).mp hkind
    exact blames_ofKind ho (ih (level + 1) (by omega)) htype

end Node

/-! ### Documents -/

namespace Recipe

open Json PlacedObject

variable {d : Json}

theorem truthful_readUnits : Truthful d d.IsAt readUnits := by
  intro path v h
  refine (truthful_expectString path v h).bind fun name hname => ?_
  obtain rfl := expectString_eq_ok_iff.mp hname
  split
  · exact .ok _
  · next hnone =>
    refine .error (.value h (.unknownUnits rfl fun hmem => ?_))
    simp only [List.mem_cons, List.not_mem_nil, or_false] at hmem
    rcases hmem with rfl | rfl | rfl <;> cases hnone

theorem blames_checkVersion {v : Json} (h : d.get? "version" = some v) :
    Blames d (checkVersion (.key .document "version") v) := by
  cases v with
  | number n =>
    simp only [checkVersion]
    split
    · exact .ok _
    · next hne =>
      refine .error (.version h ?_)
      rintro _ ⟨⟩ hvalue
      exact hne ((n.natural?_eq_some_iff 1).mpr (by rw [hvalue, Nat.cast_one]))
  | _ => exact .error (.version h nofun)

theorem blames_ofJson (v : Json) : Blames v (ofJson v) := by
  refine (truthful_expectObject .document v rfl).bind fun fields hfields => ?_
  obtain rfl := expectObject_eq_ok_iff.mp hfields
  set o : PlacedObject := ⟨fields, .document⟩
  have ho : (Json.object fields).IsAt o.path o.json := rfl
  refine (blames_get ho fun w hfield => blames_checkVersion hfield).bind fun _ _ => ?_
  refine (blames_getOptional ho truthful_readUnits).bind fun _ _ => ?_
  refine (blames_getOptional ho truthful_expectString).bind fun _ _ => ?_
  refine (blames_get ho fun w hfield => ?_).bind fun _ _ => .ok _
  exact Node.truthful_ofJsonWithin maxLevels 1 rfl _ w (.root hfield)

/-- **What is reported is true.** If a value is refused then its text is not what is wrong, and the
error says something that is true of the value: its place is one of the value, and what the cause
says holds there. -/
theorem isTrue_of_ofJson {v : Json} {e : ValidationError} (h : ofJson v = .error e) :
    (∀ reason, e.cause ≠ .malformed reason) ∧ e.IsTrue v := by
  have htrue := blames_ofJson v e h
  refine ⟨fun reason hcause => ?_, htrue⟩
  cases htrue with
  | @value _ _ cause _ hvalue =>
    obtain rfl : cause = .malformed reason := hcause
    cases hvalue
  | version => cases hcause
  | missing => cases hcause
  | tooDeep => cases hcause

/-- A vector of two numbers, in the second child of the root. -/
theorem isTrue_of_ofJson_offset : ∃ (v : Json) (e : ValidationError),
    v = .object [("version", .ofNat 1), ("root", .object [("type", .string "union"),
      ("children", .array [
        .object [("type", .string "cuboid"), ("size", .array [.ofNat 1, .ofNat 1, .ofNat 1])],
        .object [("type", .string "translate"), ("offset", .array [.ofNat 1, .ofNat 2])]])])] ∧
    e = ⟨((Path.root.key "children").index 1).key "offset", .wrongArity 2⟩ ∧
    ofJson v = .error e ∧ (∀ reason, e.cause ≠ .malformed reason) ∧ e.IsTrue v := by
  exact ⟨_, _, rfl, rfl, rfl, isTrue_of_ofJson rfl⟩

end Recipe

end Solids
