import Mathlib.Data.String.Basic
import Solids.Proofs.Grammar
import Solids.Proofs.Keys
import Solids.Proofs.Reading
/-!
# Solids.Proofs.Slots

**Which fields are read.** A document is read by a few keys, and a node by those that its type has.
All other fields are of no account, and so is the order of the fields.

Main definitions:

* `Slot` — a field that is read, with what is expected there;
* `Json.cutNode`, `Json.cutDocument` — a node or a document with nothing else in it;
* `Json.Same` — the same value but for the order of fields;
* `Json.IsStored` — all fields are in the order of their keys.

Main statement: `Recipe.agrees_of_same_cut`.

Two values that are the same may be reported in two ways: an unsupported version is quoted, with its
fields in their order. Of values that are stored this cannot happen.
-/

namespace Solids

/-! ### Slots -/

/-- What a single value should be. -/
inductive Expected where
  /-- An object. -/
  | object
  /-- No node, because there are too many above it. -/
  | noNode
  /-- The number of the version. -/
  | version
  /-- The name of a unit. -/
  | units
  /-- A text. -/
  | text
  /-- The name of a type of nodes. -/
  | nodeType
  /-- An array of three items. -/
  | triple
  /-- A number. -/
  | number
  /-- A number above zero. -/
  | length
  /-- An integer from one up to what 32 bits hold. -/
  | segments
  /-- An array that is not empty. -/
  | items
  deriving DecidableEq

/-- What should be under a key. -/
inductive SlotContent where
  /-- A value of which no part is read by itself. -/
  | single (expected : Expected)
  /-- Three numbers. -/
  | vector
  /-- A node. -/
  | node
  /-- Several nodes. -/
  | nodes
  deriving DecidableEq

/-- A field that is read. -/
structure Slot where
  /-- The key. -/
  key : String
  /-- What should be there. -/
  content : SlotContent
  /-- The field may be left out. -/
  optional : Bool
  deriving DecidableEq

namespace Slot

/-- The fields of a document. -/
def ofDocument : List Slot :=
  [⟨"version", .single .version, false⟩, ⟨"units", .single .units, true⟩,
    ⟨"name", .single .text, true⟩, ⟨"root", .node, false⟩]

/-- The fields of a type of nodes. -/
def ofType : String → List Slot
  | "cuboid" => [⟨"size", .vector, false⟩, ⟨"center", .vector, true⟩]
  | "sphere" =>
    [⟨"radius", .single .length, false⟩, ⟨"center", .vector, true⟩,
      ⟨"segments", .single .segments, true⟩]
  | "cylinder" =>
    [⟨"height", .single .length, false⟩, ⟨"radius", .single .length, false⟩,
      ⟨"center", .vector, true⟩, ⟨"segments", .single .segments, true⟩]
  | "union" | "subtract" | "intersect" => [⟨"children", .nodes, false⟩]
  | "translate" => [⟨"offset", .vector, false⟩, ⟨"child", .node, false⟩]
  | "rotate" => [⟨"angles", .vector, false⟩, ⟨"child", .node, false⟩]
  | "scale" => [⟨"factors", .vector, false⟩, ⟨"child", .node, false⟩]
  | _ => []

/-- The fields of a node: its type, and those that the type has. -/
def ofNode (fields : List (String × Json)) : List Slot :=
  ⟨"type", .single .nodeType, false⟩ ::
    match Json.field? fields "type" with
    | some (.string name) => ofType name
    | _ => []

/-- What should be under a key, if it is one of the slots. -/
def content? (slots : List Slot) (key : String) : Option SlotContent :=
  (slots.find? (·.key = key)).map (·.content)

theorem content?_of_mem {slots : List Slot} {s : Slot} (h : (slots.map (·.key)).Nodup)
    (hs : s ∈ slots) : content? slots s.key = some s.content := by
  induction slots with
  | nil => cases hs
  | cons t slots ih =>
    rw [List.map_cons, List.nodup_cons] at h
    rcases List.mem_cons.mp hs with rfl | hs
    · simp [content?]
    · have hne : t.key ≠ s.key := fun heq => h.1 (heq ▸ List.mem_map_of_mem hs)
      simpa [content?, hne] using ih h.2 hs

theorem nodup_ofNode (fields : List (String × Json)) :
    ((ofNode fields).map (·.key)).Nodup := by
  unfold ofNode
  split
  · unfold ofType
    split <;> decide
  · decide

end Slot

/-! ### Cutting down -/

namespace Json

mutual

/-- A node with nothing in it that is not read. -/
def cutNode : Json → Json
  | .object fields => .object (cutFields (Slot.content? (Slot.ofNode fields)) fields)
  | .null => .null
  | .bool value => .bool value
  | .number value => .number value
  | .string value => .string value
  | .array items => .array items

/-- Several nodes with nothing in them that is not read. -/
def cutNodes : Json → Json
  | .array items => .array (cutItems items)
  | .null => .null
  | .bool value => .bool value
  | .number value => .number value
  | .string value => .string value
  | .object fields => .object fields

/-- The nodes in an array. -/
def cutItems : List Json → List Json
  | [] => []
  | item :: rest => item.cutNode :: cutItems rest

/-- The fields that are read. -/
def cutFields (content? : String → Option SlotContent) : List (String × Json) → List (String × Json)
  | [] => []
  | (key, value) :: rest =>
    match content? key with
    | none => cutFields content? rest
    | some .node => (key, value.cutNode) :: cutFields content? rest
    | some .nodes => (key, value.cutNodes) :: cutFields content? rest
    | some .vector | some (.single _) => (key, value) :: cutFields content? rest

end

/-- A document with nothing in it that is not read. -/
def cutDocument : Json → Json
  | .object fields => .object (cutFields (Slot.content? Slot.ofDocument) fields)
  | v => v

end Json

/-- The value with nothing in it that is not read. -/
def SlotContent.cut : SlotContent → Json → Json
  | .node, v => v.cutNode
  | .nodes, v => v.cutNodes
  | .vector, v | .single _, v => v

namespace Json

theorem cutItems_eq_map (items : List Json) : cutItems items = items.map cutNode := by
  induction items with
  | nil => rfl
  | cons item rest ih => rw [cutItems, ih, List.map_cons]

theorem cutFields_cons (content? : String → Option SlotContent) (key : String) (value : Json)
    (rest : List (String × Json)) : cutFields content? ((key, value) :: rest) =
      match content? key with
      | none => cutFields content? rest
      | some content => (key, content.cut value) :: cutFields content? rest := by
  rw [cutFields]
  cases content? key with
  | none => rfl
  | some content => cases content <;> rfl

theorem field?_cutFields (content? : String → Option SlotContent) (fields : List (String × Json))
    (key : String) : field? (cutFields content? fields) key =
      (content? key).bind fun content => (field? fields key).map content.cut := by
  induction fields with
  | nil => cases content? key <;> rfl
  | cons e rest ih =>
    obtain ⟨key', value⟩ := e
    rw [cutFields_cons]
    unfold field? at ih ⊢
    by_cases hkey : key = key'
    · subst hkey
      cases hcontent : content? key with
      | none => simpa [hcontent] using ih
      | some content => simp
    · have hne : (key == key') = false := beq_eq_false_iff_ne.mpr hkey
      cases hcontent : content? key' with
      | none => simpa [List.lookup_cons, hne] using ih
      | some content => simpa [List.lookup_cons, hne] using ih

/-! ### The order of fields -/

/-- The values are the same but for the order of the fields of objects. -/
inductive Same : Json → Json → Prop where
  /-- Nothing is the same as nothing. -/
  | null : Same .null .null
  /-- The same truth value. -/
  | bool (value : Bool) : Same (.bool value) (.bool value)
  /-- The same number. -/
  | number (value : Number) : Same (.number value) (.number value)
  /-- The same text. -/
  | string (value : String) : Same (.string value) (.string value)
  /-- As many items, each the same. -/
  | array {items items' : List Json} : items.length = items'.length →
      (∀ (i : ℕ) v w, items[i]? = some v → items'[i]? = some w → Same v w) →
      Same (.array items) (.array items')
  /-- The same under each key. -/
  | object {fields fields' : List (String × Json)} :
      (∀ key, (field? fields key).isSome = (field? fields' key).isSome) →
      (∀ key v w, field? fields key = some v → field? fields' key = some w → Same v w) →
      Same (.object fields) (.object fields')

mutual

theorem Same.refl : (v : Json) → v.Same v
  | .null => .null
  | .bool value => .bool value
  | .number value => .number value
  | .string value => .string value
  | .array items => .array rfl fun i v w hv hw => by
    rw [Option.some.inj (hw.symm.trans hv)]
    exact same_of_mem items v (List.mem_of_getElem? hv)
  | .object fields => .object (fun _ => rfl) fun key v w hv hw => by
    rw [Option.some.inj (hw.symm.trans hv)]
    exact same_of_mem_fields fields _ (mem_of_field? hv)

theorem same_of_mem : (items : List Json) → ∀ v ∈ items, v.Same v
  | [], _, hv => absurd hv List.not_mem_nil
  | item :: rest, v, hv => by
    rcases List.mem_cons.mp hv with h | hv
    · rw [h]
      exact Same.refl item
    · exact same_of_mem rest v hv

theorem same_of_mem_fields : (fields : List (String × Json)) → ∀ e ∈ fields, e.2.Same e.2
  | [], _, he => absurd he List.not_mem_nil
  | (key, value) :: rest, e, he => by
    rcases List.mem_cons.mp he with h | he
    · rw [h]
      exact Same.refl value
    · exact same_of_mem_fields rest e he

end

/-- Fields in another order are the same. -/
theorem same_of_perm {fields fields' : List (String × Json)} (h : fields.Perm fields')
    (hkeys : (fields.map Prod.fst).Nodup) : (Json.object fields).Same (.object fields') := by
  have hfield (key : String) : field? fields key = field? fields' key := by
    ext v
    rw [field?_eq_some_iff hkeys, field?_eq_some_iff ((h.map _).nodup_iff.mp hkeys), h.mem_iff]
  refine .object (fun key => by rw [hfield]) fun key v w hv hw => ?_
  rw [Option.some.inj (hw.symm.trans ((hfield key).symm.trans hv))]
  exact .refl v

/-! ### Stored values -/

/-- All objects have their fields in the order of their keys, and each key once. -/
inductive IsStored : Json → Prop where
  /-- Nothing has no keys. -/
  | null : IsStored .null
  /-- A truth value has no keys. -/
  | bool (value : Bool) : IsStored (.bool value)
  /-- A number has no keys. -/
  | number (value : Number) : IsStored (.number value)
  /-- A text has no keys. -/
  | string (value : String) : IsStored (.string value)
  /-- An array has those of its items. -/
  | array {items : List Json} : (∀ v ∈ items, IsStored v) → IsStored (.array items)
  /-- An object has its own and those of its values. -/
  | object {fields : List (String × Json)} : (fields.map Prod.fst).Pairwise (· < ·) →
      (∀ e ∈ fields, IsStored e.2) → IsStored (.object fields)

theorem IsStored.of_get? {v w : Json} {key : String} (h : v.IsStored) (hw : v.get? key = some w) :
    w.IsStored := by
  cases h with
  | object _ hvalues => exact hvalues _ (mem_of_field? hw)
  | _ => cases hw

/-- What is stored has one order. -/
theorem Same.eq_of_isStored {v w : Json} (h : v.Same w) (hv : v.IsStored) (hw : w.IsStored) :
    v = w := by
  induction h with
  | null => rfl
  | bool => rfl
  | number => rfl
  | string => rfl
  | @array items items' hlength _ ih =>
    cases hv with | array hv =>
    cases hw with | array hw =>
    congr 1
    refine List.ext_getElem hlength fun i hi hi' => ?_
    exact ih i _ _ (List.getElem?_eq_getElem hi) (List.getElem?_eq_getElem hi')
      (hv _ (List.getElem_mem hi)) (hw _ (List.getElem_mem hi'))
  | @object fields fields' hkeys _ ih =>
    cases hv with | object hsorted hv =>
    cases hw with | object hsorted' hw =>
    have hfield (key : String) : field? fields key = field? fields' key := by
      have hsome := hkeys key
      cases hx : field? fields key with
      | none => cases hy : field? fields' key with
        | none => rfl
        | some w => simp [hx, hy] at hsome
      | some v => cases hy : field? fields' key with
        | none => simp [hx, hy] at hsome
        | some w =>
          rw [ih key v w hx hy (hv _ (mem_of_field? hx)) (hw _ (mem_of_field? hy))]
    have hnodup : (fields.map Prod.fst).Nodup := hsorted.imp LT.lt.ne
    have hnodup' : (fields'.map Prod.fst).Nodup := hsorted'.imp LT.lt.ne
    have hperm : fields.Perm fields' := by
      refine (List.perm_ext_iff_of_nodup hnodup.of_map hnodup'.of_map).mpr fun e => ?_
      rw [← Prod.mk.eta (p := e), ← field?_eq_some_iff hnodup, ← field?_eq_some_iff hnodup', hfield]
    congr 1
    rw [List.pairwise_map] at hsorted hsorted'
    exact hperm.eq_of_pairwise (fun e e' _ _ h h' => absurd h h'.asymm) hsorted hsorted'

theorem pairwise_insertField {fields : List (String × Json)} (key : String) (v : Json)
    (h : (fields.map Prod.fst).Pairwise (· < ·)) :
    ((insertField key v fields).map Prod.fst).Pairwise (· < ·) := by
  induction fields with
  | nil => simp [insertField]
  | cons e rest ih =>
    obtain ⟨k, w⟩ := e
    rw [List.map_cons, List.pairwise_cons] at h
    rw [insertField]
    split_ifs with hlt heq
    · refine List.pairwise_cons.mpr ⟨fun k' hk' => ?_, List.pairwise_cons.mpr h⟩
      rcases List.mem_cons.mp hk' with rfl | hk'
      · exact hlt
      · exact hlt.trans (h.1 k' hk')
    · subst heq
      exact List.pairwise_cons.mpr h
    · refine List.pairwise_cons.mpr ⟨fun k' hk' => ?_, ih h.2⟩
      obtain ⟨e', he', rfl⟩ := List.mem_map.mp hk'
      rcases mem_of_mem_insertField he' with rfl | he'
      · exact lt_of_le_of_ne (not_lt.mp hlt) (Ne.symm heq)
      · exact h.1 _ (List.mem_map_of_mem he')

theorem pairwise_sorted (fields : List (String × Json)) :
    ((sorted fields).map Prod.fst).Pairwise (· < ·) := by
  induction fields using List.reverseRecOn with
  | nil => simp [sorted]
  | append_singleton fields e ih =>
    rw [sorted_concat]
    exact pairwise_insertField e.1 e.2 ih

mutual

/-- What is read is stored. -/
theorem isStored_asRead : (v : Json) → v.asRead.IsStored
  | .null => .null
  | .bool value => .bool value
  | .number value => .number value
  | .string value => .string value
  | .array items => .array (isStored_itemsAsRead items)
  | .object fields =>
    .object (pairwise_sorted _) fun e he => isStored_fieldsAsRead fields e (mem_of_mem_sorted he)

theorem isStored_itemsAsRead : (items : List Json) → ∀ v ∈ itemsAsRead items, v.IsStored
  | [], _, hv => absurd hv List.not_mem_nil
  | item :: rest, v, hv => by
    rcases List.mem_cons.mp hv with h | hv
    · rw [h]
      exact isStored_asRead item
    · exact isStored_itemsAsRead rest v hv

theorem isStored_fieldsAsRead : (fields : List (String × Json)) →
    ∀ e ∈ fieldsAsRead fields, e.2.IsStored
  | [], _, he => absurd he List.not_mem_nil
  | (key, value) :: rest, e, he => by
    rcases List.mem_cons.mp he with h | he
    · rw [h]
      exact isStored_asRead value
    · exact isStored_fieldsAsRead rest e he

end

end Json

/-! ### Readers -/

theorem bind_congr_left {ε α β : Type} {x y : Except ε α} {f g : α → Except ε β} (h : x = y)
    (hfg : ∀ a, x = .ok a → f a = g a) : x >>= f = y >>= g := by
  subst h
  cases x with
  | error e => rfl
  | ok a => exact hfg a rfl

/-- The reader does not tell such values apart. -/
def Respects {α : Type} (R : Json → Json → Prop)
    (read : Path → Json → Except ValidationError α) : Prop :=
  ∀ path v w, R v w → read path v = read path w

namespace Json

theorem respects_expectString : Respects Same fun path v => v.expectString path := by
  rintro path _ _ (_ | _ | _ | _ | _ | _) <;> rfl

theorem respects_expectDouble : Respects Same fun path v => v.expectDouble path := by
  rintro path _ _ (_ | _ | _ | _ | _ | _) <;> rfl

theorem respects_expectPositive : Respects Same fun path v => v.expectPositive path := by
  rintro path _ _ (_ | _ | _ | _ | _ | _) <;> rfl

theorem respects_expectSegments : Respects Same fun path v => v.expectSegments path := by
  rintro path _ _ (_ | _ | _ | _ | _ | _) <;> rfl

theorem Same.forall₂ {items items' : List Json} (h : (Json.array items).Same (.array items')) :
    List.Forall₂ Same items items' := by
  cases h with
  | array hlength hitems =>
    refine List.forall₂_iff_get.mpr ⟨hlength, fun i hi hi' => ?_⟩
    exact hitems i _ _ (List.getElem?_eq_getElem hi) (List.getElem?_eq_getElem hi')

theorem respects_expectVec3 : Respects Same fun path v => v.expectVec3 path := by
  intro path v w h
  cases h with
  | array hlength hitems =>
    have hitems := (Same.array hlength hitems).forall₂
    match hitems with
    | .nil | .cons _ .nil | .cons _ (.cons _ .nil) => rfl
    | .cons hx (.cons hy (.cons hz .nil)) =>
      have hx := respects_expectDouble (path.index 0) _ _ hx
      have hy := respects_expectDouble (path.index 1) _ _ hy
      have hz := respects_expectDouble (path.index 2) _ _ hz
      simp only at hx hy hz
      simp only [expectVec3, expectArray, bind, Except.bind, hx, hy, hz]
    | .cons _ (.cons _ (.cons _ (.cons _ hrest))) =>
      simp only [expectVec3, expectArray, bind, Except.bind, List.length_cons, hrest.length_eq]
  | _ => rfl

end Json

namespace PlacedObject

variable {α : Type} {R : Json → Json → Prop} {read : Path → Json → Except ValidationError α}
  {fields fields' : List (String × Json)} {key : String} (path : Path)

theorem get_congr (hread : Respects R read)
    (h : Option.Rel R (Json.field? fields key) (Json.field? fields' key)) :
    (PlacedObject.mk fields path).get key read = (PlacedObject.mk fields' path).get key read := by
  unfold PlacedObject.get required
  dsimp only
  generalize Json.field? fields key = v at h ⊢
  generalize Json.field? fields' key = w at h ⊢
  cases h with
  | none => rfl
  | some h => exact hread _ _ _ h

theorem getOptional_congr (hread : Respects R read)
    (h : Option.Rel R (Json.field? fields key) (Json.field? fields' key)) :
    (PlacedObject.mk fields path).getOptional key read =
      (PlacedObject.mk fields' path).getOptional key read := by
  unfold getOptional
  dsimp only
  generalize Json.field? fields key = v at h ⊢
  generalize Json.field? fields' key = w at h ⊢
  cases h with
  | none => rfl
  | some h => exact congrArg (some <$> ·) (hread _ _ _ h)

end PlacedObject

/-! ### Readers of nodes -/

namespace Slot

/-- Under the keys of the slots the fields are the same, but for what is not read. -/
def SameIn (slots : List Slot) (fields fields' : List (String × Json)) : Prop :=
  ∀ s ∈ slots, Option.Rel (fun v w => (s.content.cut v).Same (s.content.cut w))
    (Json.field? fields s.key) (Json.field? fields' s.key)

end Slot

namespace Json

variable {fields fields' : List (String × Json)}

theorem Same.field? (h : (Json.object fields).Same (.object fields')) (key : String) :
    Option.Rel Same (field? fields key) (field? fields' key) := by
  cases h with
  | object hkeys hvalues =>
    have hsome := hkeys key
    cases hv : Json.field? fields key with
    | none => cases hw : Json.field? fields' key with
      | none => exact .none
      | some w => simp [hv, hw] at hsome
    | some v => cases hw : Json.field? fields' key with
      | none => simp [hv, hw] at hsome
      | some w => exact .some (hvalues key v w hv hw)

/-- What is the same after cutting was the same before, but for what was cut. -/
theorem Same.rel_of_cutFields {content? content?' : String → Option SlotContent}
    (h : (Json.object (cutFields content? fields)).Same (.object (cutFields content?' fields')))
    {key : String} {content : SlotContent} (hcontent : content? key = some content)
    (hcontent' : content?' key = some content) :
    Option.Rel (fun v w => (content.cut v).Same (content.cut w))
      (Json.field? fields key) (Json.field? fields' key) := by
  have hfield := h.field? key
  simp only [field?_cutFields, hcontent, hcontent', Option.bind_some] at hfield
  generalize Json.field? fields key = v at hfield ⊢
  generalize Json.field? fields' key = w at hfield ⊢
  cases v <;> cases w <;> cases hfield
  case none.none => exact .none
  case some.some h => exact .some h

theorem Same.sameIn {slots : List Slot} (hslots : (slots.map (·.key)).Nodup)
    (h : (Json.object (cutFields (Slot.content? slots) fields)).Same
      (.object (cutFields (Slot.content? slots) fields'))) : Slot.SameIn slots fields fields' := by
  intro s hs
  have hcontent := Slot.content?_of_mem hslots hs
  exact h.rel_of_cutFields hcontent hcontent

theorem ofNode_congr (h : Option.Rel Same (field? fields "type") (field? fields' "type")) :
    Slot.ofNode fields = Slot.ofNode fields' := by
  unfold Slot.ofNode
  generalize field? fields "type" = v at h ⊢
  generalize field? fields' "type" = w at h ⊢
  rcases h with (_ | _ | _ | _ | _ | _) | _ <;> rfl

/-- Two nodes that are the same, but for what is not read, are the same in the slots of both. -/
theorem sameIn_of_cutNode (h : (Json.object fields).cutNode.Same (Json.object fields').cutNode) :
    Slot.SameIn (Slot.ofNode fields) fields fields' := by
  have hcontent (fields : List (String × Json)) : Slot.content? (Slot.ofNode fields) "type" =
      some (.single .nodeType) := Slot.content?_of_mem (Slot.nodup_ofNode fields) (.head _)
  have hslots : Slot.ofNode fields = Slot.ofNode fields' :=
    ofNode_congr (Same.rel_of_cutFields h (hcontent fields) (hcontent fields'))
  refine Same.sameIn (Slot.nodup_ofNode fields) ?_
  unfold cutNode at h
  rwa [← hslots] at h

end Json

namespace PlacedObject

open Json

variable {fields fields' : List (String × Json)} (path : Path)

theorem cuboid_congr (h : Slot.SameIn (Slot.ofType "cuboid") fields fields') :
    (PlacedObject.mk fields path).cuboid = (PlacedObject.mk fields' path).cuboid := by
  have hsize := get_congr path respects_expectVec3 (h _ (.head _))
  have hcenter := getOptional_congr path respects_expectVec3 (h _ (.tail _ (.head _)))
  rw [cuboid, cuboid, center, center, hsize, hcenter]

theorem sphere_congr (h : Slot.SameIn (Slot.ofType "sphere") fields fields') :
    (PlacedObject.mk fields path).sphere = (PlacedObject.mk fields' path).sphere := by
  have hradius := get_congr path respects_expectPositive (h _ (.head _))
  have hcenter := getOptional_congr path respects_expectVec3 (h _ (.tail _ (.head _)))
  have hsegments := getOptional_congr path respects_expectSegments
    (h _ (.tail _ (.tail _ (.head _))))
  rw [sphere, sphere, center, center, segments, segments, hradius, hcenter, hsegments]

theorem cylinder_congr (h : Slot.SameIn (Slot.ofType "cylinder") fields fields') :
    (PlacedObject.mk fields path).cylinder = (PlacedObject.mk fields' path).cylinder := by
  have hheight := get_congr path respects_expectPositive (h _ (.head _))
  have hradius := get_congr path respects_expectPositive (h _ (.tail _ (.head _)))
  have hcenter := getOptional_congr path respects_expectVec3 (h _ (.tail _ (.tail _ (.head _))))
  have hsegments := getOptional_congr path respects_expectSegments
    (h _ (.tail _ (.tail _ (.tail _ (.head _)))))
  rw [cylinder, cylinder, center, center, segments, segments, hheight, hradius, hcenter, hsegments]

end PlacedObject

namespace Node

open PlacedObject

variable {fields fields' : List (String × Json)} {path : Path}
  {read : Path → Json → Except ValidationError (Node Double)}

/-- The values are the same nodes, but for what is not read. -/
def Alike (v w : Json) : Prop := v.cutNode.Same w.cutNode

theorem itemsFrom_congr {α : Type} {R : Json → Json → Prop}
    {read : Path → Json → Except ValidationError α} (hread : Respects R read) (path : Path) (i : ℕ)
    {items items' : List Json} (h : List.Forall₂ R items items') :
    itemsFrom read path i items = itemsFrom read path i items' := by
  induction h generalizing i with
  | nil => rfl
  | cons hitem _ ih => rw [itemsFrom, itemsFrom, hread _ _ _ hitem, ih]

theorem childrenOf_congr (hread : Respects Alike read)
    (h : Slot.SameIn [⟨"children", .nodes, false⟩] fields fields') :
    childrenOf ⟨fields, path⟩ read = childrenOf ⟨fields', path⟩ read := by
  refine get_congr path (fun path v w hvw => ?_) (h _ (.head _))
  cases v with
  | array items =>
    cases w with
    | array items' =>
      have hitems : List.Forall₂ Alike items items' := by
        have hcut := Json.Same.forall₂ hvw
        rwa [Json.cutItems_eq_map, Json.cutItems_eq_map, List.forall₂_map_left_iff,
          List.forall₂_map_right_iff] at hcut
      cases hitems with
      | nil => rfl
      | cons hitem hrest => exact itemsFrom_congr hread path 0 (.cons hitem hrest)
    | _ => cases hvw
  | _ =>
    cases w with
    | array => cases hvw
    | _ => rfl

theorem ofKind_congr (hread : Respects Alike read) {kind : String}
    (h : Slot.SameIn (Slot.ofType kind) fields fields') :
    ofKind kind ⟨fields, path⟩ read = ofKind kind ⟨fields', path⟩ read := by
  have combined (h : Slot.SameIn [⟨"children", .nodes, false⟩] fields fields')
      (combination : Combination) : combinationOf ⟨fields, path⟩ combination read =
        combinationOf ⟨fields', path⟩ combination read := by
    rw [combinationOf, combinationOf, childrenOf_congr hread h]
  have moved {key : String}
      (h : Slot.SameIn [⟨key, .vector, false⟩, ⟨"child", .node, false⟩] fields fields')
      (motion : Vec3 Double → Motion Double) : motionOf ⟨fields, path⟩ key motion read =
        motionOf ⟨fields', path⟩ key motion read := by
    rw [motionOf, motionOf, get_congr path Json.respects_expectVec3 (h _ (.head _)),
      get_congr path hread (h _ (.tail _ (.head _)))]
  unfold ofKind
  split
  case h_1 => rw [cuboid_congr path h]
  case h_2 => rw [sphere_congr path h]
  case h_3 => rw [cylinder_congr path h]
  case h_4 => exact combined h _
  case h_5 => exact combined h _
  case h_6 => exact combined h _
  case h_7 => exact moved h _
  case h_8 => exact moved h _
  case h_9 => exact moved h _
  case h_10 => rfl

theorem ofJsonWithin_object (levels : ℕ) (path : Path) (fields : List (String × Json)) :
    ofJsonWithin (levels + 1) path (.object fields) =
      ((PlacedObject.mk fields path).get "type" fun path v => v.expectString path) >>= fun kind =>
        ofKind kind ⟨fields, path⟩ (ofJsonWithin levels) :=
  rfl

/-- The reader of nodes does not tell apart what differs in fields that are not read. -/
theorem respects_ofJsonWithin (levels : ℕ) : Respects Alike (ofJsonWithin levels) := by
  induction levels with
  | zero => exact fun _ _ _ _ => rfl
  | succ levels ih =>
    intro path v w h
    cases v with
    | object fields =>
      cases w with
      | object fields' =>
        have hsame := Json.sameIn_of_cutNode h
        have htype := get_congr path Json.respects_expectString (hsame _ (.head _))
        rw [ofJsonWithin_object, ofJsonWithin_object]
        refine bind_congr_left htype fun kind hkind => ofKind_congr ih fun s hs => hsame s ?_
        obtain ⟨_, hfield, ⟨_⟩⟩ := (get_eq_ok_iff Json.reads_expectString).mp hkind
        have hkey : Json.field? fields "type" = some (.string kind) := hfield
        rw [Slot.ofNode, hkey]
        exact .tail _ hs
      | _ => cases h
    | _ =>
      cases w with
      | object => cases h
      | _ => rfl

end Node

/-! ### Documents -/

/-- The same cause. A version may be quoted with its fields in another order. -/
inductive Mismatch.Same : Mismatch → Mismatch → Prop where
  /-- Any cause. -/
  | refl (cause : Mismatch) : Same cause cause
  /-- A version that is the same. -/
  | unsupportedVersion {v w : Json} :
      v.Same w → Same (.unsupportedVersion v) (.unsupportedVersion w)

namespace Recipe

open Json PlacedObject

/-- Both are the same, or both fail at the same place for the same cause. -/
inductive Agrees {α : Type} : Except ValidationError α → Except ValidationError α → Prop where
  /-- The same. -/
  | ok (a : α) : Agrees (.ok a) (.ok a)
  /-- The same place and the same cause. -/
  | error (path : Path) {cause cause' : Mismatch} : cause.Same cause' →
      Agrees (.error ⟨path, cause⟩) (.error ⟨path, cause'⟩)

theorem Agrees.refl {α : Type} : (x : Except ValidationError α) → Agrees x x
  | .ok a => .ok a
  | .error e => .error e.path (.refl e.cause)

theorem Agrees.bind {α β : Type} {x y : Except ValidationError α}
    {f g : α → Except ValidationError β} (h : Agrees x y) (hfg : ∀ a, f a = g a) :
    Agrees (x >>= f) (y >>= g) := by
  cases h with
  | ok a =>
    show Agrees (f a) (g a)
    rw [hfg]
    exact .refl _
  | error path hcause => exact .error path hcause

theorem agrees_checkVersion {fields fields' : List (String × Json)}
    (h : Option.Rel Same (field? fields "version") (field? fields' "version")) :
    Agrees ((PlacedObject.mk fields .document).get "version" checkVersion)
      ((PlacedObject.mk fields' .document).get "version" checkVersion) := by
  unfold PlacedObject.get required
  dsimp only
  generalize field? fields "version" = v at h ⊢
  generalize field? fields' "version" = w at h ⊢
  cases h with
  | none => exact .refl _
  | some h =>
    cases h with
    | array hlength hitems => exact .error _ (.unsupportedVersion (.array hlength hitems))
    | object hkeys hvalues => exact .error _ (.unsupportedVersion (.object hkeys hvalues))
    | _ => exact .refl _

theorem respects_readUnits : Respects Same readUnits := by
  rintro path _ _ (_ | _ | _ | _ | _ | _) <;> rfl

/-- The document without its version. -/
def ofVersioned (o : PlacedObject) : Except ValidationError (Recipe Double) := do
  let units ← o.getOptional "units" readUnits
  let name ← o.getOptional "name" fun path v => v.expectString path
  let root ← o.get "root" Node.ofJson
  return { version := recipeVersion.toUInt64, units := units.getD .mm, name, root }

theorem ofJson_object (fields : List (String × Json)) : ofJson (.object fields) =
    (PlacedObject.mk fields .document).get "version" checkVersion >>= fun _ =>
      ofVersioned ⟨fields, .document⟩ :=
  rfl

theorem ofVersioned_congr {fields fields' : List (String × Json)}
    (h : Slot.SameIn Slot.ofDocument fields fields') :
    ofVersioned ⟨fields, .document⟩ = ofVersioned ⟨fields', .document⟩ := by
  have hunits := getOptional_congr .document respects_readUnits (h _ (.tail _ (.head _)))
  have hname := getOptional_congr .document respects_expectString
    (h _ (.tail _ (.tail _ (.head _))))
  have hroot := get_congr .document (Node.respects_ofJsonWithin maxLevels)
    (h _ (.tail _ (.tail _ (.tail _ (.head _)))))
  have hroot : (PlacedObject.mk fields .document).get "root" Node.ofJson =
      (PlacedObject.mk fields' .document).get "root" Node.ofJson := hroot
  rw [ofVersioned, ofVersioned, hunits, hname, hroot]

/-- **Keys that are ignored have no influence.** Two values that are the same if everything is cut
from them that is not read are read as the same recipe, or fail at the same place for the same
cause. -/
theorem agrees_of_same_cut {v w : Json} (h : v.cutDocument.Same w.cutDocument) :
    Agrees (ofJson v) (ofJson w) ∧ (v.IsStored → w.IsStored → ofJson v = ofJson w) := by
  cases v with
  | object fields =>
    cases w with
    | object fields' =>
      have hsame : Slot.SameIn Slot.ofDocument fields fields' := Same.sameIn (by decide) h
      have hrest := ofVersioned_congr hsame
      have hversion : Option.Rel Same (field? fields "version") (field? fields' "version") :=
        hsame _ (.head _)
      rw [ofJson_object, ofJson_object]
      refine ⟨(agrees_checkVersion hversion).bind fun _ => hrest, fun hv hw => ?_⟩
      have hstored : Option.Rel Eq (field? fields "version") (field? fields' "version") := by
        cases hx : field? fields "version" <;> cases hy : field? fields' "version" <;>
          rw [hx, hy] at hversion <;> cases hversion
        case none.none => exact .none
        case some.some h => exact .some (h.eq_of_isStored (hv.of_get? hx) (hw.of_get? hy))
      have hread : Respects Eq checkVersion := fun _ _ _ h => h ▸ rfl
      have heq := get_congr .document hread hstored
      exact bind_congr_left heq fun _ _ => hrest
    | _ => cases h
  | _ =>
    cases w with
    | object => cases h
    | _ => exact ⟨.refl _, fun _ _ => rfl⟩

/-- A box and a ball in a union. The radius of the box is ignored, and that of the ball is not. -/
theorem agrees_of_same_cut_union : ∃ v w u ball,
    ball = Json.object [("radius", .ofNat 1), ("type", .string "sphere")] ∧
    v = .object [("comment", .null), ("root", .object [("children", .array [
      .object [("radius", .bool true), ("size", .array [.ofNat 1, .ofNat 2, .ofNat 3]),
        ("type", .string "cuboid")], ball]), ("type", .string "union")]), ("version", .ofNat 1)] ∧
    w = .object [("root", .object [("children", .array [
      .object [("size", .array [.ofNat 1, .ofNat 2, .ofNat 3]), ("type", .string "cuboid")],
      ball]), ("radius", .ofNat 0), ("type", .string "union")]), ("version", .ofNat 1)] ∧
    u = .object [("version", .ofNat 1), ("root", .object [("children", .array [
      .object [("size", .array [.ofNat 1, .ofNat 2, .ofNat 3]), ("type", .string "cuboid")],
      ball]), ("type", .string "union")])] ∧
    ofJson v = ofJson w ∧ Agrees (ofJson v) (ofJson u) := by
  have hstored : ∀ v : Json, v.asRead = v → v.IsStored := fun v h => h ▸ isStored_asRead v
  refine ⟨_, _, _, _, rfl, rfl, rfl, rfl, ?_, ?_⟩
  · exact (agrees_of_same_cut (.refl _)).2 (hstored _ rfl) (hstored _ rfl)
  · refine (agrees_of_same_cut ?_).1
    exact same_of_perm (.swap ("version", _) ("root", _) []) (by decide)

end Recipe

end Solids
