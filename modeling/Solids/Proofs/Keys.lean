import Solids.Proofs.Brackets
import Solids.Proofs.Printing
/-!
# Solids.Proofs.Keys

**Keys that occur once.** A text may have a key several times in an object. What is read of it has
each key once, with its last value, so brackets may be lost on the way. Where no key is repeated
nothing is lost: the fields are only put in order.

Main definition:

* `Json.HasDistinctKeys` — no object of a value has a key twice.

Main statements:

* `Json.nesting_asRead_le`, `Json.HasDistinctKeys.nesting_asRead` — how deeply nested is what is
  read;
* `Json.HasDistinctKeys.get?_asRead` — what is read under a key.
-/

namespace Solids.Json

/-- No object of a value has a key twice. -/
inductive HasDistinctKeys : Json → Prop where
  /-- Nothing has no keys. -/
  | null : HasDistinctKeys .null
  /-- A truth value has no keys. -/
  | bool (value : Bool) : HasDistinctKeys (.bool value)
  /-- A number has no keys. -/
  | number (value : Number) : HasDistinctKeys (.number value)
  /-- A text has no keys. -/
  | string (value : String) : HasDistinctKeys (.string value)
  /-- An array has those of its items. -/
  | array {items : List Json} : (∀ v ∈ items, HasDistinctKeys v) → HasDistinctKeys (.array items)
  /-- An object has its own and those of its values. -/
  | object {fields : List (String × Json)} : (fields.map Prod.fst).Nodup →
      (∀ e ∈ fields, HasDistinctKeys e.2) → HasDistinctKeys (.object fields)

/-! ### Fields -/

section

variable {fields fields' : List (String × Json)} {key : String} {v w : Json} {e : String × Json}

theorem mem_of_field? (h : field? fields key = some v) : (key, v) ∈ fields := by
  obtain ⟨before, after, rfl, -⟩ := List.lookup_eq_some_iff.mp h
  simp

theorem field?_eq_some_iff (h : (fields.map Prod.fst).Nodup) :
    field? fields key = some v ↔ (key, v) ∈ fields := by
  refine ⟨mem_of_field?, fun hmem => ?_⟩
  obtain ⟨before, after, rfl⟩ := List.append_of_mem hmem
  refine List.lookup_eq_some_iff.mpr ⟨before, after, rfl, fun e he => ?_⟩
  rw [List.map_append, List.map_cons] at h
  have hne := (List.nodup_append.mp h).2.2 e.1 (List.mem_map_of_mem he) key List.mem_cons_self
  simpa [bne_iff_ne] using hne.symm

theorem mem_of_mem_insertField (h : e ∈ insertField key v fields) : e = (key, v) ∨ e ∈ fields := by
  induction fields with
  | nil => exact .inl (List.mem_singleton.mp h)
  | cons entry rest ih =>
    rw [insertField] at h
    split_ifs at h
    · exact List.mem_cons.mp h
    · exact (List.mem_cons.mp h).imp_right (List.mem_cons_of_mem _)
    · rcases List.mem_cons.mp h with rfl | h
      · exact .inr List.mem_cons_self
      · exact (ih h).imp_right (List.mem_cons_of_mem _)

theorem perm_insertField (h : key ∉ fields.map Prod.fst) :
    (insertField key v fields).Perm ((key, v) :: fields) := by
  induction fields with
  | nil => exact .refl _
  | cons entry rest ih =>
    rw [List.map_cons, List.mem_cons, not_or] at h
    rw [insertField, if_neg h.1]
    split_ifs
    · exact .refl _
    · exact ((ih h.2).cons entry).trans (.swap _ _ _)

/-- Of two values under a key the last one counts. -/
theorem insertField_insertField (key : String) (v w : Json) (fields : List (String × Json)) :
    insertField key w (insertField key v fields) = insertField key w fields := by
  induction fields with
  | nil => simp [insertField]
  | cons entry rest ih =>
    rw [insertField, insertField]
    split_ifs with hlt heq
    · simp [insertField]
    · simp [insertField]
    · rw [insertField, if_neg hlt, if_neg heq, ih]

theorem sorted_concat (fields : List (String × Json)) (e : String × Json) :
    sorted (fields ++ [e]) = insertField e.1 e.2 (sorted fields) := by
  simp [sorted]

theorem mem_of_mem_sorted (h : e ∈ sorted fields) : e ∈ fields := by
  induction fields using List.reverseRecOn with
  | nil => exact h
  | append_singleton fields e' ih =>
    rw [sorted_concat] at h
    rcases mem_of_mem_insertField h with rfl | h
    · simp
    · exact List.mem_append_left _ (ih h)

/-- Fields with distinct keys are only put in order. -/
theorem perm_sorted (h : (fields.map Prod.fst).Nodup) : (sorted fields).Perm fields := by
  induction fields using List.reverseRecOn with
  | nil => exact .refl _
  | append_singleton fields e ih =>
    rw [List.map_append, List.nodup_append] at h
    obtain ⟨hfields, -, hne⟩ := h
    have hperm := ih hfields
    have hnew : e.1 ∉ (sorted fields).map Prod.fst := fun hmem =>
      hne e.1 ((hperm.map Prod.fst).mem_iff.mp hmem) e.1 (by simp) rfl
    rw [sorted_concat]
    exact (perm_insertField hnew).trans
      ((hperm.cons e).trans (List.perm_append_singleton e fields).symm)

end

/-! ### What is read -/

section

variable {v : Json} {key : String}

theorem nestingOfFields_congr {fields fields' : List (String × Json)} (h : fields.Perm fields') :
    nestingOfFields fields = nestingOfFields fields' := by
  have hle {fields fields' : List (String × Json)} (h : fields.Perm fields') :
      nestingOfFields fields ≤ nestingOfFields fields' :=
    nestingOfFields_le_iff.mpr fun e he => nestingOfFields_le_iff.mp le_rfl e (h.mem_iff.mp he)
  exact le_antisymm (hle h) (hle h.symm)

mutual

/-- What is read is not nested more deeply than what is written. -/
theorem nesting_asRead_le : (v : Json) → v.asRead.nesting ≤ v.nesting
  | .null | .bool _ | .number _ | .string _ => le_rfl
  | .array items => Nat.succ_le_succ (nestingOfItems_asRead_le items)
  | .object fields => by
    refine Nat.succ_le_succ (le_trans ?_ (nestingOfFields_asRead_le fields))
    exact nestingOfFields_le_iff.mpr fun e he =>
      nestingOfFields_le_iff.mp le_rfl e (mem_of_mem_sorted he)

theorem nestingOfItems_asRead_le : (items : List Json) →
    nestingOfItems (itemsAsRead items) ≤ nestingOfItems items
  | [] => le_rfl
  | v :: rest => max_le_max (nesting_asRead_le v) (nestingOfItems_asRead_le rest)

theorem nestingOfFields_asRead_le : (fields : List (String × Json)) →
    nestingOfFields (fieldsAsRead fields) ≤ nestingOfFields fields
  | [] => le_rfl
  | (_, v) :: rest => max_le_max (nesting_asRead_le v) (nestingOfFields_asRead_le rest)

end

theorem map_fst_fieldsAsRead (fields : List (String × Json)) :
    (fieldsAsRead fields).map Prod.fst = fields.map Prod.fst := by
  simp [fieldsAsRead_eq_map]

namespace HasDistinctKeys

/-- What is read has distinct keys, too. -/
theorem asRead (h : v.HasDistinctKeys) : v.asRead.HasDistinctKeys := by
  induction h with
  | null => exact .null
  | bool value => exact .bool value
  | number value => exact .number value
  | string value => exact .string value
  | array _ ih =>
    refine .array fun v hv => ?_
    rw [itemsAsRead_eq_map] at hv
    obtain ⟨w, hw, rfl⟩ := List.mem_map.mp hv
    exact ih w hw
  | @object fields hkeys _ ih =>
    have hkeys' : ((fieldsAsRead fields).map Prod.fst).Nodup := by
      rwa [map_fst_fieldsAsRead]
    refine .object (((perm_sorted hkeys').map Prod.fst).nodup_iff.mpr hkeys') fun e he => ?_
    have he := mem_of_mem_sorted he
    rw [fieldsAsRead_eq_map] at he
    obtain ⟨e', he', rfl⟩ := List.mem_map.mp he
    exact ih e' he'

/-- No brackets are lost. -/
theorem nesting_asRead (h : v.HasDistinctKeys) : v.asRead.nesting = v.nesting := by
  refine le_antisymm (nesting_asRead_le v) ?_
  induction h with
  | null => exact le_rfl
  | bool => exact le_rfl
  | number => exact le_rfl
  | string => exact le_rfl
  | @array items _ ih =>
    refine Nat.succ_le_succ (nestingOfItems_le_iff.mpr fun v hv => (ih v hv).trans ?_)
    refine nestingOfItems_le_iff.mp le_rfl _ ?_
    rw [itemsAsRead_eq_map]
    exact List.mem_map_of_mem hv
  | @object fields hkeys _ ih =>
    have hkeys' : ((fieldsAsRead fields).map Prod.fst).Nodup := by
      rwa [map_fst_fieldsAsRead]
    refine Nat.succ_le_succ ?_
    rw [nestingOfFields_congr (perm_sorted hkeys')]
    refine nestingOfFields_le_iff.mpr fun e he => (ih e he).trans ?_
    refine nestingOfFields_le_iff.mp le_rfl (e.1, e.2.asRead) ?_
    rw [fieldsAsRead_eq_map]
    exact List.mem_map_of_mem he

/-- What is under a key is read and found there. -/
theorem get?_asRead (h : v.HasDistinctKeys) (key : String) :
    v.asRead.get? key = (v.get? key).map Json.asRead := by
  cases h with
  | @object fields hkeys _ =>
    have hkeys' : ((fieldsAsRead fields).map Prod.fst).Nodup := by
      rwa [map_fst_fieldsAsRead]
    have hperm := perm_sorted hkeys'
    ext w
    rw [Json.asRead, get?_object, get?_object,
      field?_eq_some_iff ((hperm.map Prod.fst).nodup_iff.mpr hkeys'), hperm.mem_iff,
      fieldsAsRead_eq_map, List.mem_map, Option.map_eq_some_iff]
    simp only [field?_eq_some_iff hkeys, Prod.mk.injEq]
    constructor
    · rintro ⟨⟨_, w⟩, hmem, rfl, rfl⟩
      exact ⟨w, hmem, rfl⟩
    · rintro ⟨w, hmem, rfl⟩
      exact ⟨⟨key, w⟩, hmem, rfl, rfl⟩
  | _ => rfl

/-- What is under a key has distinct keys. -/
theorem of_get? (h : v.HasDistinctKeys) {w : Json} (hw : v.get? key = some w) :
    w.HasDistinctKeys := by
  cases h with
  | object _ hvalues => exact hvalues _ (mem_of_field? hw)
  | _ => cases hw

theorem of_mem {items : List Json} (h : (Json.array items).HasDistinctKeys) {w : Json}
    (hw : w ∈ items) : w.HasDistinctKeys := by
  cases h with
  | array hitems => exact hitems w hw

/-- An object is nested as deeply as what is found in it, and one more. -/
theorem nesting_le (h : v.HasDistinctKeys) {b : ℕ}
    (hle : ∀ key w, v.get? key = some w → w.nesting ≤ b) (hobject : ∃ fields, v = .object fields) :
    v.nesting ≤ b + 1 := by
  obtain ⟨fields, rfl⟩ := hobject
  cases h with
  | object hkeys _ =>
    refine Nat.succ_le_succ (nestingOfFields_le_iff.mpr fun e he => ?_)
    exact hle e.1 e.2 ((field?_eq_some_iff hkeys).mpr he)

end HasDistinctKeys

end

/-! ### Other numbers -/

section

variable {f : Number → Number} {v : Json}

theorem mapNumbersOfItems_eq_map (items : List Json) :
    mapNumbersOfItems f items = items.map (mapNumbers f) := by
  induction items with
  | nil => rfl
  | cons item rest ih => rw [mapNumbersOfItems, ih, List.map_cons]

theorem mapNumbersOfFields_eq_map (fields : List (String × Json)) :
    mapNumbersOfFields f fields = fields.map fun e => (e.1, e.2.mapNumbers f) := by
  induction fields with
  | nil => rfl
  | cons e rest ih => rw [mapNumbersOfFields, ih, List.map_cons]

mutual

theorem nesting_mapNumbers : (v : Json) → (v.mapNumbers f).nesting = v.nesting
  | .null | .bool _ | .number _ | .string _ => rfl
  | .array items => congrArg (· + 1) (nestingOfItems_mapNumbers items)
  | .object fields => congrArg (· + 1) (nestingOfFields_mapNumbers fields)

theorem nestingOfItems_mapNumbers : (items : List Json) →
    nestingOfItems (mapNumbersOfItems f items) = nestingOfItems items
  | [] => rfl
  | v :: rest => congrArg₂ max (nesting_mapNumbers v) (nestingOfItems_mapNumbers rest)

theorem nestingOfFields_mapNumbers : (fields : List (String × Json)) →
    nestingOfFields (mapNumbersOfFields f fields) = nestingOfFields fields
  | [] => rfl
  | (_, v) :: rest => congrArg₂ max (nesting_mapNumbers v) (nestingOfFields_mapNumbers rest)

end

theorem HasDistinctKeys.mapNumbers (h : v.HasDistinctKeys) :
    (v.mapNumbers f).HasDistinctKeys := by
  induction h with
  | null => exact .null
  | bool value => exact .bool value
  | number value => exact .number (f value)
  | string value => exact .string value
  | array _ ih =>
    refine .array fun v hv => ?_
    rw [mapNumbersOfItems_eq_map] at hv
    obtain ⟨w, hw, rfl⟩ := List.mem_map.mp hv
    exact ih w hw
  | object hkeys _ ih =>
    refine .object ?_ fun e he => ?_
    · rw [mapNumbersOfFields_eq_map, List.map_map]
      exact hkeys
    · rw [mapNumbersOfFields_eq_map] at he
      obtain ⟨e', he', rfl⟩ := List.mem_map.mp he
      exact ih e' he'

theorem get?_mapNumbers (v : Json) (key : String) :
    (v.mapNumbers f).get? key = (v.get? key).map (Json.mapNumbers f) := by
  cases v with
  | object fields =>
    rw [Json.mapNumbers, get?_object, get?_object]
    induction fields with
    | nil => rfl
    | cons e rest ih =>
      obtain ⟨k, w⟩ := e
      simp only [field?, mapNumbersOfFields, List.lookup_cons] at ih ⊢
      split
      · rfl
      · exact ih
  | _ => rfl

end

end Solids.Json
