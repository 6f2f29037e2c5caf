import Solids.Proofs.Grammar
import Solids.Proofs.Preorder
import Solids.Recipe.Encoding
/-!
# Solids.Proofs.RoundTrip

**Recipes that are written and read again.** A recipe made in code may hold anything its types
allow. It can be written as JSON in any case, but it is only read from there if a document could
have been where it came from.

Main definitions:

* `Node.IsSound`, `Recipe.IsWellFormed` — nodes and recipes as they come from documents.

Main statements:

* `Node.isNode_toJson_iff` — what a node that was written denotes;
* `Recipe.isWellFormed_of_ofJson` — recipes that were read are well-formed;
* `Recipe.ofJson_toJson` — well-formed recipes are read as they were written, and others are not
  read at all.

A number that is not finite is written as `null`, and so lost. Everything else that makes a recipe
malformed is there for the reader to see.
-/

namespace Solids

/-! ### Well-formed recipes -/

namespace Node

/-- The numbers that a node itself holds. -/
def numbers : Node Double → List Double
  | .shape (.cuboid size center) => size.toList ++ center.elim [] Vec3.toList
  | .shape (.sphere radius center _) => radius :: center.elim [] Vec3.toList
  | .shape (.cylinder height radius center _) => height :: radius :: center.elim [] Vec3.toList
  | .combine _ _ => []
  | .move (.translate vector) _ | .move (.rotate vector) _ | .move (.scale vector) _ =>
    vector.toList

/-- The numbers that have to be above zero. -/
def lengths : Node Double → List Double
  | .shape (.sphere radius _ _) => [radius]
  | .shape (.cylinder height radius _ _) => [height, radius]
  | _ => []

/-- A node as it comes from a document, apart from what is below it. -/
structure IsSound (n : Node Double) : Prop where
  /-- All numbers are finite. -/
  finite : ∀ x ∈ n.numbers, x.isFinite = true
  /-- Lengths are above zero. -/
  positive : ∀ x ∈ n.lengths, 0 < x
  /-- If a number of segments is set, it is one at least. -/
  segments : ∀ count ∈ n.segments?, 1 ≤ count.toNat
  /-- A combination is one of something. -/
  children : ∀ combination, n ≠ .combine combination []

/-- A node as it comes from a document, with all that is below it. -/
def IsSoundTree (n : Node Double) : Prop := ∀ e ∈ n.preorder .root, e.1.IsSound

end Node

/-- A recipe as it comes from a document. -/
structure Recipe.IsWellFormed (r : Recipe Double) : Prop where
  /-- The version is the only one there is. -/
  version : r.version = 1
  /-- All nodes are sound. -/
  nodes : r.root.IsSoundTree
  /-- There are at most 60 levels of nodes. -/
  levels : r.root.levels ≤ 60

namespace Node

variable {K : Type}

mutual

/-- The nodes of a tree do not depend on its place. -/
theorem map_fst_preorder (path path' : Path) : (n : Node K) →
    (n.preorder path).map Prod.fst = (n.preorder path').map Prod.fst
  | .shape _ => rfl
  | .combine _ children => by
    simp only [preorder, List.map_cons,
      map_fst_preorderOfItems _ (path'.key "children") 0 0 children]
  | .move _ child => by
    simp only [preorder, List.map_cons, map_fst_preorder _ (path'.key "child") child]

theorem map_fst_preorderOfItems (path path' : Path) (i i' : ℕ) : (ns : List (Node K)) →
    (preorderOfItems path i ns).map Prod.fst = (preorderOfItems path' i' ns).map Prod.fst
  | [] => rfl
  | n :: rest => by
    simp only [preorderOfItems, List.map_append, map_fst_preorder _ (path'.index i') n,
      map_fst_preorderOfItems path path' (i + 1) (i' + 1) rest]

end

theorem forall_preorder_congr {P : Node K → Prop} (path path' : Path) (n : Node K) :
    (∀ e ∈ n.preorder path, P e.1) ↔ ∀ e ∈ n.preorder path', P e.1 := by
  have h : ∀ path, (∀ e ∈ n.preorder path, P e.1) ↔ ∀ m ∈ (n.preorder path).map Prod.fst, P m := by
    simp
  rw [h, h, map_fst_preorder path path']

theorem isSoundTree_iff (n : Node Double) :
    n.IsSoundTree ↔ n.IsSound ∧ ∀ child ∈ n.children, child.IsSoundTree := by
  have hchildren : (∀ child ∈ n.children, child.IsSoundTree) ↔
      ∀ e ∈ n.placedChildren .root, ∀ e' ∈ e.1.preorder e.2, e'.1.IsSound := by
    rw [← placedChildren_fst .root n]
    simp only [List.forall_mem_map, IsSoundTree]
    exact forall₂_congr fun e _ => forall_preorder_congr _ _ _
  rw [hchildren, IsSoundTree, preorder_eq]
  simp only [List.forall_mem_cons, List.forall_mem_flatMap]

end Node

/-! ### Values that were written -/

theorem Double.toDouble_of_toJson_eq {x : Double} {n : Number} (h : x.toJson = .number n) :
    x.isFinite = true ∧ n.toDouble = x := by
  by_cases hfinite : x.isFinite = true
  · obtain ⟨n', hn', hx⟩ := exists_toJson_eq hfinite
    rw [hn'] at h
    cases h
    exact ⟨hfinite, hx⟩
  · rw [toJson_of_not_isFinite hfinite] at h
    cases h

namespace Json

theorem isVector_toJson_iff {a b : Vec3 Double} :
    a.toJson.IsVector b ↔ b = a ∧ ∀ x ∈ a.toList, x.isFinite = true := by
  obtain ⟨x, y, z⟩ := a
  constructor
  · intro h
    generalize hv : Vec3.toJson ⟨x, y, z⟩ = v at h
    cases h with
    | numbers m n o =>
      simp only [Vec3.toJson, Vec3.toList, List.map_cons, List.map_nil, Json.array.injEq,
        List.cons.injEq, and_true] at hv
      obtain ⟨hx, hy, hz⟩ := hv
      obtain ⟨hfx, rfl⟩ := Double.toDouble_of_toJson_eq hx
      obtain ⟨hfy, rfl⟩ := Double.toDouble_of_toJson_eq hy
      obtain ⟨hfz, rfl⟩ := Double.toDouble_of_toJson_eq hz
      simp [Vec3.toList]
  · rintro ⟨rfl, hfinite⟩
    simp only [Vec3.toList, List.forall_mem_cons] at hfinite
    obtain ⟨hfx, hfy, hfz, -⟩ := hfinite
    obtain ⟨m, hm, hx⟩ := Double.exists_toJson_eq hfx
    obtain ⟨n, hn, hy⟩ := Double.exists_toJson_eq hfy
    obtain ⟨o, ho, hz⟩ := Double.exists_toJson_eq hfz
    have h := IsVector.numbers m n o
    rw [hx, hy, hz, ← hm, ← hn, ← ho] at h
    exact h

theorem isLength_toJson_iff {x y : Double} :
    x.toJson.IsLength y ↔ y = x ∧ x.isFinite = true ∧ 0 < x := by
  constructor
  · intro h
    generalize hv : x.toJson = v at h
    cases h with
    | @number n hpos =>
      obtain ⟨hfinite, rfl⟩ := Double.toDouble_of_toJson_eq hv
      exact ⟨rfl, hfinite, n.zero_lt_toDouble_iff.mpr hpos⟩
  · rintro ⟨rfl, hfinite, hpos⟩
    obtain ⟨n, hn, rfl⟩ := Double.exists_toJson_eq hfinite
    rw [hn]
    exact .number (n.zero_lt_toDouble_iff.mp hpos)

theorem isSegments_ofNat_iff {a b : UInt32} :
    (Json.ofNat a.toNat).IsSegments b ↔ b = a ∧ 1 ≤ a.toNat := by
  have hlt : a.toNat < 2 ^ 64 := a.toNat_lt.trans (by decide)
  have hvalue : (Number.natural a.toNat.toUInt64).value = a.toNat := by
    rw [Number.value, Nat.toUInt64_eq, UInt64.toNat_ofNat_of_lt' hlt]
  constructor
  · rintro ⟨h, hpos⟩
    rw [hvalue, Nat.cast_inj] at h
    obtain rfl := UInt32.toNat_inj.mp h
    exact ⟨rfl, hpos⟩
  · rintro ⟨rfl, hpos⟩
    exact .number hvalue hpos

theorem isText_string_iff {a b : String} : (Json.string a).IsText b ↔ b = a :=
  ⟨fun h => by cases h; rfl, fun h => h ▸ .string a⟩

theorem isUnits_name_iff {a b : Units} : (Json.string a.name).IsUnits b ↔ b = a := by
  have hread : Recipe.readUnits .document (.string a.name) = .ok a := by cases a <;> rfl
  rw [← Recipe.reads_readUnits .document, hread, Except.ok.injEq, eq_comm]

variable {α : Type} {v w : Json} {key : String} {denotes : Json → α → Prop}

theorem field_iff (h : v.get? key = some w) {a : α} : v.Field key denotes a ↔ denotes w a := by
  simp [Field, h]

/-- A field for an option that was written. -/
theorem optionalField_iff {encode : α → Json} {P : α → Prop} {b : Option α}
    (h : v.get? key = b.map encode) (hencode : ∀ b a, denotes (encode b) a ↔ a = b ∧ P b)
    {a : Option α} : v.OptionalField key denotes a ↔ a = b ∧ ∀ x ∈ b, P x := by
  cases a <;> cases b <;> simp [OptionalField, Field, h, hencode]

theorem optionalField_eq_iff {encode : α → Json} {b : Option α}
    (h : v.get? key = b.map encode) (hencode : ∀ b a, denotes (encode b) a ↔ a = b)
    {a : Option α} : v.OptionalField key denotes a ↔ a = b := by
  cases a <;> cases b <;> simp [OptionalField, Field, h, hencode]

end Json

/-! ### Nodes that were written -/

namespace Node

open PlacedObject

/-- What a node with a type denotes is what a reader of this type gives. -/
theorem isNode_iff_ofKind {o : PlacedObject} {kind : String} (htype : o.json.HasType kind)
    {n : Node Double} :
    o.json.IsNode n ↔ ∃ levels, ofKind kind o (ofJsonWithin levels) = .ok n := by
  constructor
  · intro h
    obtain rfl : n.kind = kind :=
      Json.string.inj (Option.some.inj (h.hasType.symm.trans htype))
    exact ⟨n.levels, ofKind_of_isNode (readsWithin_ofJsonWithin _) h (Nat.le_succ _)⟩
  · rintro ⟨levels, hread⟩
    exact (isNode_of_ofKind (readsWithin_ofJsonWithin levels) htype hread).1

theorem forall_mem_elim_iff {P : Double → Prop} {center : Option (Vec3 Double)} :
    (∀ x ∈ center.elim [] Vec3.toList, P x) ↔ ∀ c ∈ center, ∀ x ∈ c.toList, P x := by
  cases center <;> simp

theorem isSound_shape_iff (s : Shape Double) : (Node.shape s).IsSound ↔
    (∀ x ∈ (Node.shape s).numbers, x.isFinite = true) ∧ (∀ x ∈ (Node.shape s).lengths, 0 < x) ∧
      ∀ count ∈ s.segments?, 1 ≤ count.toNat :=
  ⟨fun h => ⟨h.finite, h.positive, h.segments⟩, fun ⟨hf, hp, hs⟩ => ⟨hf, hp, hs, nofun⟩⟩

/-- A shape that was written denotes itself if it is sound, and nothing otherwise. -/
theorem isNode_shape_iff (s : Shape Double) {m : Node Double} :
    (Node.shape s).toJson.IsNode m ↔ m = .shape s ∧ (Node.shape s).IsSound := by
  set o : PlacedObject := ⟨("type", .string s.service.name) :: s.fields, .document⟩
  change o.json.IsNode m ↔ _
  rw [isNode_iff_ofKind (show o.json.HasType s.service.name from rfl), isSound_shape_iff]
  cases s with
  | cuboid size center =>
    have hsize : o.json.get? "size" = some size.toJson := rfl
    -- what is left out is not found, and nothing that is written has the same key
    have hcenter : o.json.get? "center" = center.map Vec3.toJson := by cases center <;> rfl
    change (∃ levels, Node.shape <$> o.cuboid = .ok m) ↔ _
    simp only [exists_const, map_eq_ok_iff, cuboid_eq_ok_iff, Json.field_iff hsize,
      Json.optionalField_iff hcenter fun _ _ => Json.isVector_toJson_iff, Json.isVector_toJson_iff,
      numbers, List.forall_mem_append, forall_mem_elim_iff]
    constructor
    · rintro ⟨_, ⟨_, ⟨rfl, hfs⟩, _, ⟨rfl, hfc⟩, rfl⟩, rfl⟩
      exact ⟨rfl, ⟨hfs, hfc⟩, nofun, nofun⟩
    · rintro ⟨rfl, ⟨hfs, hfc⟩, -, -⟩
      exact ⟨_, ⟨_, ⟨rfl, hfs⟩, _, ⟨rfl, hfc⟩, rfl⟩, rfl⟩
  | sphere radius center segments =>
    have hradius : o.json.get? "radius" = some radius.toJson := rfl
    have hcenter : o.json.get? "center" = center.map Vec3.toJson := by
      cases center <;> cases segments <;> rfl
    have hsegments : o.json.get? "segments" = segments.map fun n => Json.ofNat n.toNat := by
      cases center <;> cases segments <;> rfl
    change (∃ levels, Node.shape <$> o.sphere = .ok m) ↔ _
    simp only [exists_const, map_eq_ok_iff, sphere_eq_ok_iff, Json.field_iff hradius,
      Json.optionalField_iff hcenter fun _ _ => Json.isVector_toJson_iff,
      Json.optionalField_iff hsegments fun _ _ => Json.isSegments_ofNat_iff,
      Json.isLength_toJson_iff, numbers, lengths, List.forall_mem_cons, forall_mem_elim_iff]
    constructor
    · rintro ⟨_, ⟨_, ⟨rfl, hfr, hpr⟩, _, ⟨rfl, hfc⟩, _, ⟨rfl, hcount⟩, rfl⟩, rfl⟩
      exact ⟨rfl, ⟨hfr, hfc⟩, ⟨hpr, nofun⟩, hcount⟩
    · rintro ⟨rfl, ⟨hfr, hfc⟩, ⟨hpr, -⟩, hcount⟩
      exact ⟨_, ⟨_, ⟨rfl, hfr, hpr⟩, _, ⟨rfl, hfc⟩, _, ⟨rfl, hcount⟩, rfl⟩, rfl⟩
  | cylinder height radius center segments =>
    have hheight : o.json.get? "height" = some height.toJson := rfl
    have hradius : o.json.get? "radius" = some radius.toJson := rfl
    have hcenter : o.json.get? "center" = center.map Vec3.toJson := by
      cases center <;> cases segments <;> rfl
    have hsegments : o.json.get? "segments" = segments.map fun n => Json.ofNat n.toNat := by
      cases center <;> cases segments <;> rfl
    change (∃ levels, Node.shape <$> o.cylinder = .ok m) ↔ _
    simp only [exists_const, map_eq_ok_iff, cylinder_eq_ok_iff, Json.field_iff hheight,
      Json.field_iff hradius, Json.optionalField_iff hcenter fun _ _ => Json.isVector_toJson_iff,
      Json.optionalField_iff hsegments fun _ _ => Json.isSegments_ofNat_iff,
      Json.isLength_toJson_iff, numbers, lengths, List.forall_mem_cons, forall_mem_elim_iff]
    constructor
    · rintro ⟨_, ⟨_, ⟨rfl, hfh, hph⟩, _, ⟨rfl, hfr, hpr⟩, _, ⟨rfl, hfc⟩, _, ⟨rfl, hcount⟩, rfl⟩,
        rfl⟩
      exact ⟨rfl, ⟨hfh, hfr, hfc⟩, ⟨hph, hpr, nofun⟩, hcount⟩
    · rintro ⟨rfl, ⟨hfh, hfr, hfc⟩, ⟨hph, hpr, -⟩, hcount⟩
      exact ⟨_, ⟨_, ⟨rfl, hfh, hph⟩, _, ⟨rfl, hfr, hpr⟩, _, ⟨rfl, hfc⟩, _, ⟨rfl, hcount⟩, rfl⟩,
        rfl⟩

theorem isSound_combine_iff (combination : Combination) (ns : List (Node Double)) :
    (Node.combine combination ns).IsSound ↔ ns ≠ [] := by
  refine ⟨fun h hns => h.children combination (by rw [hns]), fun hne => ⟨nofun, nofun, nofun, ?_⟩⟩
  rintro _ ⟨⟩
  exact hne rfl

theorem isSound_move_iff (motion : Motion Double) (child : Node Double) :
    (Node.move motion child).IsSound ↔
      ∀ x ∈ (Node.move motion child).numbers, x.isFinite = true :=
  ⟨IsSound.finite, fun h => ⟨h, nofun, nofun, nofun⟩⟩

/-- A motion that was written, whichever of the three it is. -/
theorem isNode_motion_iff {o : PlacedObject} {kind key : String}
    {motion : Vec3 Double → Motion Double} {vector : Vec3 Double} {child m : Node Double}
    (htype : o.json.HasType kind)
    (hkind : ∀ read, ofKind kind o read = motionOf o key motion read)
    (hvector : o.json.get? key = some vector.toJson)
    (hchild : o.json.get? "child" = some child.toJson)
    (hbelow : ∀ c, child.toJson.IsNode c ↔ c = child ∧ child.IsSoundTree) :
    o.json.IsNode m ↔ m = .move (motion vector) child ∧
      (∀ x ∈ vector.toList, x.isFinite = true) ∧ child.IsSoundTree := by
  rw [isNode_iff_ofKind htype]
  simp only [hkind, motionOf_eq_ok_iff (readsWithin_ofJsonWithin _), Json.field_iff hvector,
    Json.field_iff hchild, Json.isVector_toJson_iff, hbelow]
  constructor
  · rintro ⟨levels, _, ⟨rfl, hfinite⟩, _, ⟨⟨rfl, hsound⟩, -⟩, rfl⟩
    exact ⟨rfl, hfinite, hsound⟩
  · rintro ⟨rfl, hfinite, hsound⟩
    exact ⟨child.levels, _, ⟨rfl, hfinite⟩, _, ⟨⟨rfl, hsound⟩, le_rfl⟩, rfl⟩

mutual

/-- A node that was written denotes itself if all nodes are sound, and nothing otherwise. -/
theorem isNode_toJson_iff : (n m : Node Double) → (n.toJson.IsNode m ↔ m = n ∧ n.IsSoundTree)
  | .shape s, m => by
    rw [isNode_shape_iff, isSoundTree_iff]
    simp [children]
  | .combine combination ns, m => by
    set o : PlacedObject := ⟨[("type", .string combination.service.name),
      ("children", .array (allToJson ns))], .document⟩
    have htype : o.json.HasType combination.service.name := rfl
    have hkind (read : Path → Json → Except ValidationError (Node Double)) :
        ofKind combination.service.name o read = combinationOf o combination read := by
      cases combination <;> rfl
    have hchildren : o.json.get? "children" = some (.array (allToJson ns)) := rfl
    have hnil : allToJson ns ≠ [] ↔ ns ≠ [] := by simp [allToJson_eq_map]
    have hbelow := forall₂_isNode_toJson_iff ns
    change o.json.IsNode m ↔ _
    rw [isNode_iff_ofKind htype, isSoundTree_iff, isSound_combine_iff]
    simp only [hkind, combinationOf_eq_ok_iff (readsWithin_ofJsonWithin _), hchildren,
      Option.some.injEq, Json.array.injEq]
    constructor
    · rintro ⟨levels, ms, ⟨_, rfl, hne, hitems, -⟩, rfl⟩
      obtain ⟨rfl, hsound⟩ := (hbelow ms).mp hitems
      exact ⟨rfl, hnil.mp hne, hsound⟩
    · rintro ⟨rfl, hne, hsound⟩
      exact ⟨levelsOfAll ns, ns, ⟨_, rfl, hnil.mpr hne, (hbelow ns).mpr ⟨rfl, hsound⟩, le_rfl⟩, rfl⟩
  | .move motion child, m => by
    set o : PlacedObject := ⟨[("type", .string motion.service.name), motion.field,
      ("child", child.toJson)], .document⟩
    have htype : o.json.HasType motion.service.name := rfl
    have hbelow := isNode_toJson_iff child
    change o.json.IsNode m ↔ _
    rw [isSoundTree_iff, isSound_move_iff]
    simp only [children, List.forall_mem_singleton]
    cases motion with
    | translate offset => exact isNode_motion_iff htype (fun _ => rfl) rfl rfl hbelow
    | rotate angles => exact isNode_motion_iff htype (fun _ => rfl) rfl rfl hbelow
    | scale factors => exact isNode_motion_iff htype (fun _ => rfl) rfl rfl hbelow

theorem forall₂_isNode_toJson_iff : (ns ms : List (Node Double)) →
    (List.Forall₂ Json.IsNode (allToJson ns) ms ↔ ms = ns ∧ ∀ n ∈ ns, n.IsSoundTree)
  | [], ms => by simp [allToJson]
  | n :: rest, [] => by simp [allToJson]
  | n :: rest, m :: others => by
    simp only [allToJson, List.forall₂_cons, isNode_toJson_iff n m,
      forall₂_isNode_toJson_iff rest others, List.cons.injEq, List.forall_mem_cons]
    tauto

end

end Node

/-! ### Values that were read -/

namespace Json

variable {v : Json}

theorem IsVector.finite {a : Vec3 Double} (h : v.IsVector a) :
    ∀ x ∈ a.toList, x.isFinite = true := by
  cases h with
  | numbers x y z => simp [Vec3.toList]

theorem IsLength.finite {x : Double} (h : v.IsLength x) : x.isFinite = true := by
  cases h with
  | number => exact Number.isFinite_toDouble _

theorem IsLength.pos {x : Double} (h : v.IsLength x) : 0 < x := by
  cases h with
  | number hpos => exact (Number.zero_lt_toDouble_iff _).mpr hpos

theorem IsSegments.pos {count : UInt32} (h : v.IsSegments count) : 1 ≤ count.toNat := by
  cases h with
  | number _ hpos => exact hpos

variable {α : Type} {key : String} {denotes : Json → α → Prop} {P : α → Prop}

theorem Field.forall {a : α} (h : v.Field key denotes a) (hP : ∀ w a, denotes w a → P a) :
    P a := by
  obtain ⟨w, -, hw⟩ := h
  exact hP w a hw

theorem OptionalField.forall {a : Option α} (h : v.OptionalField key denotes a)
    (hP : ∀ w a, denotes w a → P a) : ∀ x ∈ a, P x := by
  cases a with
  | none => nofun
  | some a =>
    rintro _ ⟨⟩
    exact Field.forall h hP

end Json

namespace Node

theorem isSound_of_isShape {v : Json} {s : Shape Double} (h : v.IsShape s) :
    (Node.shape s).IsSound := by
  rw [isSound_shape_iff]
  cases h with
  | cuboid _ hsize hcenter =>
    simp only [numbers, List.forall_mem_append, forall_mem_elim_iff]
    exact ⟨⟨hsize.forall fun _ _ h => h.finite, hcenter.forall fun _ _ h => h.finite⟩, nofun, nofun⟩
  | sphere _ hradius hcenter hsegments =>
    have hr := hradius.forall fun _ _ h => And.intro h.finite h.pos
    simp only [numbers, lengths, List.forall_mem_cons, forall_mem_elim_iff]
    exact ⟨⟨hr.1, hcenter.forall fun _ _ h => h.finite⟩, ⟨hr.2, nofun⟩,
      hsegments.forall fun _ _ h => h.pos⟩
  | cylinder _ hheight hradius hcenter hsegments =>
    have hh := hheight.forall fun _ _ h => And.intro h.finite h.pos
    have hr := hradius.forall fun _ _ h => And.intro h.finite h.pos
    simp only [numbers, lengths, List.forall_mem_cons, forall_mem_elim_iff]
    exact ⟨⟨hh.1, hr.1, hcenter.forall fun _ _ h => h.finite⟩, ⟨hh.2, hr.2, nofun⟩,
      hsegments.forall fun _ _ h => h.pos⟩

mutual

/-- All nodes that a value denotes are sound. -/
theorem isSoundTree_of_isNode : (n : Node Double) → ∀ v : Json, v.IsNode n → n.IsSoundTree
  | .shape s, v, h => by
    cases h with
    | shape hs => exact (isSoundTree_iff _).mpr ⟨isSound_of_isShape hs, nofun⟩
  | .combine combination ns, v, h => by
    cases h with
    | combine _ _ hne hitems =>
      have hns : ns ≠ [] := by
        rintro rfl
        exact hne (List.forall₂_nil_right_iff.mp hitems)
      exact (isSoundTree_iff _).mpr
        ⟨(isSound_combine_iff combination ns).mpr hns, isSoundTree_of_forall₂ ns _ hitems⟩
  | .move motion child, v, h => by
    cases h with
    | move hmotion _ hchild =>
      have hfinite : ∀ x ∈ (Node.move motion child).numbers, x.isFinite = true := by
        cases hmotion with
        | translate _ hvector => exact hvector.forall fun _ _ h => h.finite
        | rotate _ hvector => exact hvector.forall fun _ _ h => h.finite
        | scale _ hvector => exact hvector.forall fun _ _ h => h.finite
      refine (isSoundTree_iff _).mpr ⟨(isSound_move_iff motion child).mpr hfinite, ?_⟩
      simpa [children] using isSoundTree_of_isNode child _ hchild

theorem isSoundTree_of_forall₂ : (ns : List (Node Double)) → ∀ items : List Json,
    List.Forall₂ Json.IsNode items ns → ∀ n ∈ ns, n.IsSoundTree
  | [], _, _ => nofun
  | n :: rest, _, h => by
    cases h with
    | cons hn hrest =>
      rw [List.forall_mem_cons]
      exact ⟨isSoundTree_of_isNode n _ hn, isSoundTree_of_forall₂ rest _ hrest⟩

end

end Node

/-! ### Recipes -/

namespace Recipe

/-- A recipe that was written denotes itself if it is well-formed, and nothing otherwise. -/
theorem isRecipe_toJson_iff (r m : Recipe Double) :
    r.toJson.IsRecipe m ↔ m = r ∧ r.IsWellFormed := by
  have hversion : r.toJson.get? "version" = some (.number (.natural r.version)) := rfl
  -- a unit is always written, so what is read is never the default
  have hunits : r.toJson.get? "units" = (some r.units).map fun u => Json.string u.name := rfl
  have hname : r.toJson.get? "name" = r.name.map Json.string := by
    unfold toJson
    cases r.name <;> rfl
  have hroot : r.toJson.get? "root" = some r.root.toJson := by
    unfold toJson
    cases r.name <;> rfl
  have hone : (Number.natural r.version).value = 1 ↔ r.version = 1 := by
    rw [Number.value, Nat.cast_eq_one, ← UInt64.toNat_inj]
    rfl
  have hunit (units : Option Units) : r.toJson.OptionalField "units" Json.IsUnits units ↔
      units = some r.units :=
    Json.optionalField_eq_iff hunits fun _ _ => Json.isUnits_name_iff
  have htext (name : Option String) : r.toJson.OptionalField "name" Json.IsText name ↔
      name = r.name :=
    Json.optionalField_eq_iff hname fun _ _ => Json.isText_string_iff
  constructor
  · rintro ⟨⟨n, hn, hvalue⟩, hm, ⟨units, hu, hmunits⟩, hmname, hmroot, hlevels⟩
    rw [hversion] at hn
    cases hn
    rw [Json.field_iff hroot, Node.isNode_toJson_iff] at hmroot
    obtain ⟨hmroot, hsound⟩ := hmroot
    obtain rfl := (hunit units).mp hu
    have hr := hone.mp hvalue
    refine ⟨?_, hr, hsound, hmroot ▸ hlevels⟩
    cases m
    cases r
    rw [Recipe.mk.injEq]
    exact ⟨hm.trans hr.symm, hmunits, (htext _).mp hmname, hmroot⟩
  · rintro ⟨rfl, hr, hsound, hlevels⟩
    exact ⟨⟨_, hversion, hone.mpr hr⟩, hr, ⟨_, (hunit _).mpr rfl, rfl⟩, (htext _).mpr rfl,
      (Json.field_iff hroot).mpr ((Node.isNode_toJson_iff _ _).mpr ⟨rfl, hsound⟩), hlevels⟩

/-- A recipe that was read is well-formed. -/
theorem isWellFormed_of_ofJson {v : Json} {r : Recipe Double} (h : ofJson v = .ok r) :
    r.IsWellFormed := by
  have hr := isRecipe_of_ofJson h
  obtain ⟨w, -, hw⟩ := hr.root
  exact ⟨hr.version_eq, Node.isSoundTree_of_isNode r.root w hw, hr.levels⟩

/-- **Well-formed recipes are those that are read as they were written.** If a recipe is not
well-formed then what was written is refused, and no document at all is read as this recipe. -/
theorem ofJson_toJson (r : Recipe Double) : (ofJson r.toJson = .ok r ↔ r.IsWellFormed) ∧
    (¬ r.IsWellFormed → ∃ e, ofJson r.toJson = .error e) ∧
    ∀ v : Json, ofJson v = .ok r → r.IsWellFormed := by
  refine ⟨⟨isWellFormed_of_ofJson, fun hr => ?_⟩, fun hr => ?_, fun v => isWellFormed_of_ofJson⟩
  · exact ofJson_of_isRecipe ((isRecipe_toJson_iff r r).mpr ⟨rfl, hr⟩)
  · cases h : ofJson r.toJson with
    | error e => exact ⟨e, rfl⟩
    | ok m => exact absurd ((isRecipe_toJson_iff r m).mp (isRecipe_of_ofJson h)).2 hr

end Recipe

end Solids
