import Solids.Proofs.Keys
import Solids.Proofs.Reading
import Solids.Proofs.RoundTrip
/-!
# Solids.Proofs.Rereading

**Recipes that are printed and read again.** The text of a recipe passes the check of its brackets,
the reader of JSON and the reader of documents, and comes out as the same recipe. All that is asked
for is that the digits of its doubles are read as the same doubles.

Main definitions:

* `Number.ReadsBack`, `Double.ReadsBack` — the text of a number is read as the same double;
* `Json.reread` — what is read of the text of a value.

Main statements:

* `Json.IsRecipe.reread` — a value denotes the same recipe when it is printed and read;
* `Json.read_compact` — the text of a value is read;
* `Recipe.ofText_compact_toJson` — the text of a well-formed recipe is read as this recipe.

A double is printed with a point or an exponent, and what is read is a double again, but an integer
is read as an integer. So the value that is read is not the one that was printed. The two have the
same fields and items, and their numbers have the same doubles.
-/

namespace Solids

/-! ### Values with the same doubles -/

namespace Json

variable {f : Number → Number} {v : Json}

/-- What is read of the text of a value whose numbers are read as other ones. -/
def reread (f : Number → Number) (v : Json) : Json := (v.mapNumbers f).asRead

@[simp] theorem reread_string (s : String) : (Json.string s).reread f = .string s := rfl

@[simp] theorem reread_number (n : Number) : (Json.number n).reread f = .number (f n) := rfl

@[simp] theorem reread_array (items : List Json) :
    (Json.array items).reread f = .array (items.map (reread f)) := by
  rw [reread, mapNumbers, asRead, itemsAsRead_eq_map, mapNumbersOfItems_eq_map, List.map_map]
  rfl

theorem get?_reread (h : v.HasDistinctKeys) (key : String) :
    (v.reread f).get? key = (v.get? key).map (reread f) := by
  rw [reread, h.mapNumbers.get?_asRead, get?_mapNumbers, Option.map_map]
  rfl

section

variable (hf : ∀ n, (f n).toDouble = n.toDouble)

include hf

theorem IsVector.reread {a : Vec3 Double} (h : v.IsVector a) : (v.reread f).IsVector a := by
  cases h with
  | numbers x y z =>
    have h := IsVector.numbers (f x) (f y) (f z)
    rw [hf, hf, hf] at h
    simpa using h

theorem IsLength.reread {x : Double} (h : v.IsLength x) : (v.reread f).IsLength x := by
  cases h with
  | @number n hpos =>
    rw [← n.zero_lt_toDouble_iff, ← hf, Number.zero_lt_toDouble_iff] at hpos
    have h := IsLength.number hpos
    rwa [hf] at h

/-- A small integer is told by its double. -/
theorem value_eq_iff (n : Number) {k : ℕ} (hk : k < 2 ^ 53) : (f n).value = k ↔ n.value = k := by
  rw [← (f n).natural?_toDouble hk, hf, n.natural?_toDouble hk]

theorem IsSegments.reread {count : UInt32} (h : v.IsSegments count) :
    (v.reread f).IsSegments count := by
  cases h with
  | @number n _ hvalue hpos =>
    have hlt : count.toNat < 2 ^ 53 := count.toNat_lt.trans (by decide)
    exact .number ((value_eq_iff hf n hlt).mpr hvalue) hpos

omit hf in
theorem HasType.reread {type : String} (hd : v.HasDistinctKeys) (h : v.HasType type) :
    (v.reread f).HasType type := by
  unfold HasType at h ⊢
  rw [get?_reread hd, h]
  rfl

section

variable {α : Type} {key : String} {denotes : Json → α → Prop}

omit hf in
theorem Field.reread {a : α} (hd : v.HasDistinctKeys) (h : v.Field key denotes a)
    (hdenotes : ∀ w, denotes w a → denotes (w.reread f) a) :
    (v.reread f).Field key denotes a := by
  obtain ⟨w, hw, ha⟩ := h
  exact ⟨w.reread f, by rw [get?_reread hd, hw]; rfl, hdenotes w ha⟩

omit hf in
theorem OptionalField.reread {a : Option α} (hd : v.HasDistinctKeys)
    (h : v.OptionalField key denotes a)
    (hdenotes : ∀ w a, denotes w a → denotes (w.reread f) a) :
    (v.reread f).OptionalField key denotes a := by
  cases a with
  | none =>
    unfold OptionalField at h ⊢
    rw [get?_reread hd, h]
    rfl
  | some a => exact Field.reread hd h fun w => hdenotes w a

end

theorem IsShape.reread {s : Shape Double} (hd : v.HasDistinctKeys) (h : v.IsShape s) :
    (v.reread f).IsShape s := by
  have vector (w : Json) (a : Vec3 Double) (h : w.IsVector a) := h.reread hf
  have length (w : Json) (x : Double) (h : w.IsLength x) := h.reread hf
  have segments (w : Json) (count : UInt32) (h : w.IsSegments count) := h.reread hf
  cases h with
  | cuboid htype hsize hcenter =>
    exact .cuboid (htype.reread hd) (hsize.reread hd fun w => vector w _)
      (hcenter.reread hd vector)
  | sphere htype hradius hcenter hsegments =>
    exact .sphere (htype.reread hd) (hradius.reread hd fun w => length w _)
      (hcenter.reread hd vector) (hsegments.reread hd segments)
  | cylinder htype hheight hradius hcenter hsegments =>
    exact .cylinder (htype.reread hd) (hheight.reread hd fun w => length w _)
      (hradius.reread hd fun w => length w _) (hcenter.reread hd vector)
      (hsegments.reread hd segments)

omit hf in
theorem IsCombination.reread {combination : Combination} (hd : v.HasDistinctKeys)
    (h : v.IsCombination combination) : (v.reread f).IsCombination combination := by
  cases h with
  | union htype => exact .union (htype.reread hd)
  | subtract htype => exact .subtract (htype.reread hd)
  | intersect htype => exact .intersect (htype.reread hd)

theorem IsMotion.reread {motion : Motion Double} (hd : v.HasDistinctKeys)
    (h : v.IsMotion motion) : (v.reread f).IsMotion motion := by
  have vector (w : Json) (a : Vec3 Double) (h : w.IsVector a) := h.reread hf
  cases h with
  | translate htype hvector =>
    exact .translate (htype.reread hd) (hvector.reread hd fun w => vector w _)
  | rotate htype hvector =>
    exact .rotate (htype.reread hd) (hvector.reread hd fun w => vector w _)
  | scale htype hvector =>
    exact .scale (htype.reread hd) (hvector.reread hd fun w => vector w _)

end

mutual

/-- A node stays the same node. -/
theorem IsNode.reread (hf : ∀ n, (f n).toDouble = n.toDouble) : (n : Node Double) →
    ∀ v : Json, v.HasDistinctKeys → v.IsNode n → (v.reread f).IsNode n
  | .shape s, v, hd, h => by
    cases h with
    | shape hs => exact .shape (hs.reread hf hd)
  | .combine combination ns, v, hd, h => by
    cases h with
    | @combine _ _ items _ hcombination hfield hne hitems =>
      have hbelow := forall₂_reread hf ns items (fun w hw => (hd.of_get? hfield).of_mem hw) hitems
      refine .combine (hcombination.reread hd) ?_ (by simpa using hne) hbelow
      rw [get?_reread hd, hfield, Option.map_some, reread_array]
  | .move motion child, v, hd, h => by
    cases h with
    | @move _ w _ _ hmotion hfield hchild =>
      refine .move (hmotion.reread hf hd) ?_ (IsNode.reread hf child w (hd.of_get? hfield) hchild)
      rw [get?_reread hd, hfield, Option.map_some]

theorem forall₂_reread (hf : ∀ n, (f n).toDouble = n.toDouble) : (ns : List (Node Double)) →
    ∀ items : List Json, (∀ w ∈ items, w.HasDistinctKeys) → List.Forall₂ IsNode items ns →
    List.Forall₂ IsNode (items.map (reread f)) ns
  | [], _, _, h => by
    cases h
    exact .nil
  | n :: rest, _, hd, h => by
    cases h with
    | cons hn hrest =>
      obtain ⟨hd, hds⟩ := List.forall_mem_cons.mp hd
      exact .cons (IsNode.reread hf n _ hd hn) (forall₂_reread hf rest _ hds hrest)

end

/-- **A value that is printed and read denotes the same recipe.** -/
theorem IsRecipe.reread {r : Recipe Double} (hf : ∀ n, (f n).toDouble = n.toDouble)
    (hd : v.HasDistinctKeys) (h : v.IsRecipe r) : (v.reread f).IsRecipe r := by
  obtain ⟨⟨n, hfield, hversion⟩, hnumber, ⟨units, hunits, hname⟩, htext, ⟨w, hroot, hnode⟩,
    hlevels⟩ := h
  have hone : (f n).value = (1 : ℕ) := (value_eq_iff hf n (by decide)).mpr (by simpa using hversion)
  refine ⟨⟨f n, ?_, by simpa using hone⟩, hnumber, ⟨units, ?_, hname⟩, ?_, ⟨w.reread f, ?_, ?_⟩,
    hlevels⟩
  · rw [get?_reread hd, hfield]
    rfl
  · refine hunits.reread hd fun w u hw => ?_
    cases hw
    exacts [.mm, .cm, .m]
  · refine htext.reread hd fun w s hw => ?_
    cases hw
    exact .string _
  · rw [get?_reread hd, hroot]
    rfl
  · exact IsNode.reread hf r.root w (hd.of_get? hroot) hnode

end Json

/-! ### Numbers that are printed and read -/

/-- The text of the number is read as a number with the same double. -/
def Number.ReadsBack (n : Number) : Prop :=
  ∃ m, Json.read (Json.numberText n).toList = .ok (.number m) ∧ m.toDouble = n.toDouble

/-- The text of the double is read as the same double. -/
def Double.ReadsBack (x : Double) : Prop :=
  ∃ m, Json.read x.toJson.compact.toList = .ok (.number m) ∧ m.toDouble = x

open Classical in
/-- The number that the text of a number is read as. -/
noncomputable def Number.reread (n : Number) : Number := if h : n.ReadsBack then h.choose else n

namespace Number

theorem toDouble_reread (n : Number) : n.reread.toDouble = n.toDouble := by
  unfold reread
  split
  · next h => exact h.choose_spec.2
  · rfl

theorem spellsText_numberText {n : Number} (h : n.ReadsBack) :
    Json.SpellsText (Json.numberText n).toList (.number n.reread) := by
  have hread : Json.read (Json.numberText n).toList = .ok (.number n.reread) := by
    rw [reread, dif_pos h]
    exact h.choose_spec.1
  obtain ⟨w, hw, hasRead⟩ := Json.exists_spellsText_of_read hread
  cases w with
  | number m =>
    cases hasRead
    exact hw
  | _ => cases hasRead

/-- Integers that are not negative are printed exactly. -/
theorem readsBack_natural (k : UInt64) : (Number.natural k).ReadsBack :=
  ⟨_, (Json.spellsText_of_spells (.number (Json.isNumeral_numberText_natural k))).read_eq
    (Nat.zero_le _), rfl⟩

end Number

/-- The number that a double is printed as. -/
theorem Double.hasNumbers_toJson {x : Double} (h : x.ReadsBack) :
    x.toJson.HasNumbers Number.ReadsBack := by
  by_cases hfinite : x.isFinite = true
  · obtain ⟨n, hn, hx⟩ := exists_toJson_eq hfinite
    obtain ⟨m, hread, hm⟩ := h
    rw [hn] at hread ⊢
    exact ⟨m, hread, hm.trans hx.symm⟩
  · rw [toJson_of_not_isFinite hfinite]
    trivial

namespace Json

mutual

theorem HasNumbers.imp {P Q : Number → Prop} (hPQ : ∀ n, P n → Q n) :
    (v : Json) → v.HasNumbers P → v.HasNumbers Q
  | .null, _ | .bool _, _ | .string _, _ => trivial
  | .number n, h => hPQ n h
  | .array items, h => ItemsHaveNumbers.imp hPQ items h
  | .object fields, h => FieldsHaveNumbers.imp hPQ fields h

theorem ItemsHaveNumbers.imp {P Q : Number → Prop} (hPQ : ∀ n, P n → Q n) :
    (items : List Json) → ItemsHaveNumbers P items → ItemsHaveNumbers Q items
  | [], _ => trivial
  | v :: rest, h => ⟨HasNumbers.imp hPQ v h.1, ItemsHaveNumbers.imp hPQ rest h.2⟩

theorem FieldsHaveNumbers.imp {P Q : Number → Prop} (hPQ : ∀ n, P n → Q n) :
    (fields : List (String × Json)) → FieldsHaveNumbers P fields → FieldsHaveNumbers Q fields
  | [], _ => trivial
  | (_, v) :: rest, h => ⟨HasNumbers.imp hPQ v h.1, FieldsHaveNumbers.imp hPQ rest h.2⟩

end

variable {v : Json}

/-- The text of a value is one of the texts of what is read. -/
theorem spellsText_compact_reread (h : v.HasNumbers Number.ReadsBack) :
    SpellsText v.compact.toList (v.mapNumbers Number.reread) :=
  spellsText_compact v (HasNumbers.imp (fun _ => Number.spellsText_numberText) v h)

/-- The brackets of the text of a value are those of the value. -/
theorem bracketDepth_compact (h : v.HasNumbers Number.ReadsBack) :
    bracketDepth v.compact.toList = v.nesting := by
  rw [bracketDepth_eq_nesting (spellsText_compact_reread h), nesting_mapNumbers]

/-- **The text of a value is read.** -/
theorem read_compact (h : v.HasNumbers Number.ReadsBack) (hle : v.nesting ≤ nestingLimit) :
    read v.compact.toList = .ok (v.reread Number.reread) := by
  rw [← nesting_mapNumbers v] at hle
  exact (spellsText_compact_reread h).read_eq hle

/-- What is needed of a value to read its text. -/
structure IsPrintable (v : Json) (b : ℕ) : Prop where
  /-- Its text does not have a key twice. -/
  distinct : v.HasDistinctKeys
  /-- Its text does not have too many brackets. -/
  nested : v.nesting ≤ b
  /-- The texts of its numbers are read. -/
  numbers : v.HasNumbers Number.ReadsBack

theorem IsPrintable.mono {b c : ℕ} (h : v.IsPrintable b) (hle : b ≤ c) : v.IsPrintable c :=
  ⟨h.distinct, h.nested.trans hle, h.numbers⟩

theorem isPrintable_string (s : String) : (Json.string s).IsPrintable 0 :=
  ⟨.string s, le_rfl, trivial⟩

theorem isPrintable_ofNat (n : ℕ) : (Json.ofNat n).IsPrintable 0 :=
  ⟨.number _, le_rfl, Number.readsBack_natural _⟩

theorem itemsHaveNumbers_iff {P : Number → Prop} {items : List Json} :
    ItemsHaveNumbers P items ↔ ∀ v ∈ items, v.HasNumbers P := by
  induction items with
  | nil => simp [ItemsHaveNumbers]
  | cons v rest ih => rw [ItemsHaveNumbers, ih, List.forall_mem_cons]

theorem fieldsHaveNumbers_iff {P : Number → Prop} {fields : List (String × Json)} :
    FieldsHaveNumbers P fields ↔ ∀ e ∈ fields, e.2.HasNumbers P := by
  induction fields with
  | nil => simp [FieldsHaveNumbers]
  | cons e rest ih => rw [FieldsHaveNumbers, ih, List.forall_mem_cons]

theorem isPrintable_array {items : List Json} {b : ℕ} (h : ∀ v ∈ items, v.IsPrintable b) :
    (Json.array items).IsPrintable (b + 1) :=
  ⟨.array fun v hv => (h v hv).distinct,
    Nat.succ_le_succ (nestingOfItems_le_iff.mpr fun v hv => (h v hv).nested),
    itemsHaveNumbers_iff.mpr fun v hv => (h v hv).numbers⟩

theorem isPrintable_object {fields : List (String × Json)} {b : ℕ}
    (hkeys : (fields.map Prod.fst).Nodup) (h : ∀ e ∈ fields, e.2.IsPrintable b) :
    (Json.object fields).IsPrintable (b + 1) :=
  ⟨.object hkeys fun e he => (h e he).distinct,
    Nat.succ_le_succ (nestingOfFields_le_iff.mpr fun e he => (h e he).nested),
    fieldsHaveNumbers_iff.mpr fun e he => (h e he).numbers⟩

/-- A field for an option. -/
theorem isPrintable_optionalField {α : Type} {key : String} {encode : α → Json} {b : ℕ}
    {o : Option α} (h : ∀ a ∈ o, (encode a).IsPrintable b) :
    ∀ e ∈ optionalField key encode o, e.2.IsPrintable b := by
  cases o with
  | none => nofun
  | some a => exact List.forall_mem_singleton.mpr (h a rfl)

end Json

/-! ### Recipes that are printed and read -/

theorem Double.isPrintable_toJson {x : Double} (h : x.ReadsBack) : x.toJson.IsPrintable 0 := by
  have hnumbers := hasNumbers_toJson h
  by_cases hfinite : x.isFinite = true
  · obtain ⟨n, hn, -⟩ := exists_toJson_eq hfinite
    rw [hn] at hnumbers ⊢
    exact ⟨.number n, le_rfl, hnumbers⟩
  · rw [toJson_of_not_isFinite hfinite]
    exact ⟨.null, le_rfl, trivial⟩

theorem Vec3.isPrintable_toJson {a : Vec3 Double} (h : ∀ x ∈ a.toList, x.ReadsBack) :
    a.toJson.IsPrintable 1 := by
  refine Json.isPrintable_array fun v hv => ?_
  obtain ⟨x, hx, rfl⟩ := List.mem_map.mp hv
  exact Double.isPrintable_toJson (h x hx)

namespace Node

open Json

/-- A shape that is printed is an object with numbers and vectors. -/
theorem isPrintable_shape (s : Shape Double) (h : ∀ x ∈ (Node.shape s).numbers, x.ReadsBack) :
    (Node.shape s).toJson.IsPrintable 2 := by
  have center {center : Option (Vec3 Double)} (h : ∀ c ∈ center, ∀ x ∈ c.toList, x.ReadsBack) :
      ∀ e ∈ optionalField "center" Vec3.toJson center, e.2.IsPrintable 1 :=
    isPrintable_optionalField fun c hc => Vec3.isPrintable_toJson (h c hc)
  have segments (segments : Option UInt32) :
      ∀ e ∈ optionalField "segments" (fun n : UInt32 => Json.ofNat n.toNat) segments,
        e.2.IsPrintable 1 :=
    isPrintable_optionalField fun n _ => (isPrintable_ofNat n.toNat).mono (Nat.zero_le 1)
  have length {x : Double} (h : x.ReadsBack) : x.toJson.IsPrintable 1 :=
    (Double.isPrintable_toJson h).mono (Nat.zero_le 1)
  have type : (Json.string s.service.name).IsPrintable 1 :=
    (isPrintable_string _).mono (Nat.zero_le 1)
  cases s with
  | cuboid size c =>
    simp only [numbers, List.forall_mem_append, forall_mem_elim_iff] at h
    refine isPrintable_object ?_ ?_
    · cases c <;> simp [Shape.fields, optionalField]
    · simp only [Shape.fields, List.forall_mem_cons]
      exact ⟨type, Vec3.isPrintable_toJson h.1, center h.2⟩
  | sphere radius c count =>
    simp only [numbers, List.forall_mem_cons, forall_mem_elim_iff] at h
    refine isPrintable_object ?_ ?_
    · cases c <;> cases count <;> simp [Shape.fields, optionalField]
    · simp only [Shape.fields, List.forall_mem_cons, List.forall_mem_append]
      exact ⟨type, length h.1, center h.2, segments count⟩
  | cylinder height radius c count =>
    simp only [numbers, List.forall_mem_cons, forall_mem_elim_iff] at h
    refine isPrintable_object ?_ ?_
    · cases c <;> cases count <;> simp [Shape.fields, optionalField]
    · simp only [Shape.fields, List.forall_mem_cons, List.forall_mem_append]
      exact ⟨type, length h.1, length h.2.1, center h.2.2, segments count⟩

mutual

/-- There are two brackets for each level, of the node and of its children or its vector. -/
theorem isPrintable_toJson (path : Path) : (n : Node Double) →
    (∀ e ∈ n.preorder path, ∀ x ∈ e.1.numbers, x.ReadsBack) →
    n.toJson.IsPrintable (2 * n.levels)
  | .shape s, h => isPrintable_shape s (h (.shape s, path) List.mem_cons_self)
  | .combine combination ns, h => by
    have hitems := isPrintable_allToJson (path.key "children") 0 ns
      fun e he => h e (List.mem_cons_of_mem _ he)
    refine (isPrintable_object (b := 2 * levelsOfAll ns + 1) (by simp) ?_).mono ?_
    · simp only [List.forall_mem_cons]
      exact ⟨(isPrintable_string _).mono (Nat.zero_le _), isPrintable_array hitems, nofun⟩
    · rw [levels]
      omega
  | .move motion child, h => by
    have hchild := isPrintable_toJson (path.key "child") child
      fun e he => h e (List.mem_cons_of_mem _ he)
    have hvector := h (.move motion child, path) List.mem_cons_self
    have hfield : motion.field.2.IsPrintable 1 := by
      cases motion <;> exact Vec3.isPrintable_toJson hvector
    have hpos := child.levels_pos
    refine (isPrintable_object (b := 2 * child.levels + 1) ?_ ?_).mono ?_
    · cases motion <;> simp [Motion.field]
    · simp only [List.forall_mem_cons]
      exact ⟨(isPrintable_string _).mono (Nat.zero_le _), hfield.mono (by omega),
        hchild.mono (by omega), nofun⟩
    · rw [levels]
      omega

theorem isPrintable_allToJson (path : Path) (i : ℕ) : (ns : List (Node Double)) →
    (∀ e ∈ preorderOfItems path i ns, ∀ x ∈ e.1.numbers, x.ReadsBack) →
    ∀ v ∈ allToJson ns, v.IsPrintable (2 * levelsOfAll ns)
  | [], _ => nofun
  | n :: rest, h => by
    obtain ⟨hn, hrest⟩ := List.forall_mem_append.mp h
    have hfirst := isPrintable_toJson (path.index i) n hn
    have hothers := isPrintable_allToJson path (i + 1) rest hrest
    refine List.forall_mem_cons.mpr ⟨hfirst.mono ?_, fun v hv => (hothers v hv).mono ?_⟩
    · exact Nat.mul_le_mul_left 2 (le_max_left _ _)
    · exact Nat.mul_le_mul_left 2 (le_max_right _ _)

end

end Node

/-- One is printed with a point, and its digits are divided by ten again. -/
theorem Double.readsBack_one : Double.one.ReadsBack := by
  have hfinite : Float.isFinite 1.0 = true := by decide +kernel
  have hone : Double.one.toJson = .number (.real 1.0 hfinite) := by
    rw [Double.one, Double.ofFloat, dif_pos (by decide +kernel), Double.toJson, Json.ofFloat,
      dif_pos hfinite]
  have htext : (Json.numberText (.real 1.0 hfinite)).toList = ['1', '.', '0'] := by
    change (Layout.json.text (.ofFloat 1.0)).toList = _
    decide +kernel
  have hvalue : (Json.NumberState.fraction false 10 (-1)).value? = some (.real 1.0 hfinite) := by
    have hscaled : Json.scaled? 10 (-1) = some 1.0 := by
      rw [Json.scaled?, if_pos (by decide), Json.divideByPower, if_pos (by decide)]
      decide +kernel
    rw [Json.NumberState.value?, Json.fractional?, hscaled, Option.bind_some, Json.signed?]
    exact dif_pos hfinite
  have hn : Json.IsNumeral ['1', '.', '0'] (.real 1.0 hfinite) :=
    ⟨'1', ['.', '0'], .whole false 1, .fraction false 10 (-1), rfl, rfl, rfl, hvalue⟩
  refine ⟨.real 1.0 hfinite, ?_, rfl⟩
  rw [hone, Json.compact, htext]
  exact (Json.spellsText_of_spells (.number hn)).read_eq (Nat.zero_le _)

namespace Recipe

open Json

variable {r : Recipe Double}

/-- There are two brackets for each level, and those of the document. -/
theorem isPrintable_toJson
    (h : ∀ e ∈ r.root.preorder .root, ∀ x ∈ e.1.numbers, x.ReadsBack) :
    r.toJson.IsPrintable (2 * r.root.levels + 1) := by
  refine isPrintable_object ?_ ?_
  · cases r.name <;> simp [optionalField]
  · simp only [List.forall_mem_cons, List.forall_mem_append]
    refine ⟨?_, (isPrintable_string _).mono (Nat.zero_le _), ?_,
      Node.isPrintable_toJson .root r.root h, nofun⟩
    · exact ⟨.number _, Nat.zero_le _, Number.readsBack_natural _⟩
    · exact isPrintable_optionalField fun s _ => (isPrintable_string s).mono (Nat.zero_le _)

/-- **The text of a well-formed recipe is read as this recipe.** Its name may be any text. All that
is needed is that the digits of its doubles are read as these doubles. Then neither the check of the
brackets nor the reader of JSON refuses the text. -/
theorem ofText_compact_toJson (hr : r.IsWellFormed)
    (h : ∀ e ∈ r.root.preorder .root, ∀ x ∈ e.1.numbers, x.ReadsBack) :
    Json.bracketDepth r.toJson.compact.toList ≤ Recipe.nestingLimit ∧
      (∃ v, Json.read r.toJson.compact.toList = .ok v) ∧ ofText r.toJson.compact = .ok r := by
  have hprintable := isPrintable_toJson h
  have hlevels := hr.levels
  have hguard : Json.bracketDepth r.toJson.compact.toList ≤ Recipe.nestingLimit := by
    rw [Json.bracketDepth_compact hprintable.numbers]
    exact hprintable.nested.trans (show _ ≤ 122 by omega)
  have hread := Json.read_compact hprintable.numbers
    (hprintable.nested.trans (show _ ≤ 127 by omega))
  refine ⟨hguard, ⟨_, hread⟩, ?_⟩
  simp only [ofText, if_neg (not_lt.mpr hguard), hread]
  have hself : r.toJson.IsRecipe r := (isRecipe_toJson_iff r r).mpr ⟨rfl, hr⟩
  exact ofJson_of_isRecipe (hself.reread Number.toDouble_reread hprintable.distinct)

/-- A recipe with quotes, brackets, a line break and other characters in its name. -/
theorem ofText_compact_toJson_subtract : ∃ r : Recipe Double,
    r = ⟨1, .cm, some "\"[\x7b\\\n\x01é", .combine .subtract
      [.shape (.cuboid ⟨Double.one, Double.one, Double.one⟩ none),
        .move (.translate ⟨Double.one, Double.one, Double.one⟩)
          (.shape (.sphere Double.one none (some 8)))]⟩ ∧
    r.IsWellFormed ∧ (∀ e ∈ r.root.preorder .root, ∀ x ∈ e.1.numbers, x.ReadsBack) ∧
    Json.bracketDepth r.toJson.compact.toList ≤ Recipe.nestingLimit ∧
    (∃ v, Json.read r.toJson.compact.toList = .ok v) ∧ ofText r.toJson.compact = .ok r := by
  have hfinite : Double.one.isFinite = true := by decide +kernel
  have hpos : 0 < Double.one := by decide +kernel
  have hread := Double.readsBack_one
  refine ⟨_, rfl, ?_⟩
  set r : Recipe Double := Recipe.mk 1 .cm _ _ with hr
  have hnumbers : ∀ e ∈ r.root.preorder .root, ∀ x ∈ e.1.numbers, x.ReadsBack := by
    simp [hr, Node.preorder, Node.preorderOfItems, Node.numbers, Vec3.toList, hread]
  have hsound : r.IsWellFormed := by
    refine ⟨rfl, ?_, by decide⟩
    simp [hr, Node.IsSoundTree, Node.preorder, Node.preorderOfItems, Node.isSound_shape_iff,
      Node.isSound_combine_iff, Node.isSound_move_iff, Node.numbers, Node.lengths,
      Shape.segments?, Vec3.toList, hfinite, hpos]
  exact ⟨hsound, hnumbers, ofText_compact_toJson hsound hnumbers⟩

end Recipe

end Solids
