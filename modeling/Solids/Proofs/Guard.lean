import Solids.Proofs.Relocation
import Solids.Proofs.Rereading
import Solids.Proofs.Truthful
/-!
# Solids.Proofs.Guard

**The check of the brackets of a text.** Before a text is read its brackets are counted, and it is
refused if they are nested too deeply. The limit is between two others. No recipe needs as many
brackets, and the reader of JSON allows for more, so that it never has to refuse a text for them.

Main definitions:

* `Node.keys` — the keys that the grammar gives to a node;
* `Json.IsBare` — a value that has no other keys;
* `Json.tower` — a value that is nothing but brackets.

Main statements:

* `Json.IsBare.nesting_le` — a recipe without other keys needs at most 121 brackets;
* `Recipe.bracketDepth_agrees` — what is counted, and what is refused for it;
* `Recipe.ofText_eq_ok_iff` — what the check does to the documents that are accepted.

What is counted is what is written. Brackets under a key that is repeated or that the grammar does
not have are counted, too, though nothing is read of them. So the check can refuse a text whose
value is a recipe: `Recipe.exists_refused_repeated` and `Recipe.exists_refused_other`.
-/

namespace Solids

/-! ### Values without other keys -/

/-- The keys that the grammar gives to a node of a type. -/
def Node.keys : String → List String
  | "cuboid" => ["type", "size", "center"]
  | "sphere" => ["type", "radius", "center", "segments"]
  | "cylinder" => ["type", "height", "radius", "center", "segments"]
  | "union" | "subtract" | "intersect" => ["type", "children"]
  | "translate" => ["type", "offset", "child"]
  | "rotate" => ["type", "angles", "child"]
  | "scale" => ["type", "factors", "child"]
  | _ => []

/-- The document and its nodes have only the keys that the grammar gives them. -/
structure Json.IsBare (document : Json) : Prop where
  /-- The keys of the document. -/
  own : ∀ key v, document.get? key = some v → key ∈ ["version", "units", "name", "root"]
  /-- The keys of each node. -/
  nodes : ∀ level path v type, document.IsNodeAt level path v → v.HasType type →
    ∀ key w, v.get? key = some w → key ∈ Node.keys type

namespace Json

variable {v w : Json}

theorem IsVector.nesting_le {a : Vec3 Double} (h : v.IsVector a) : v.nesting ≤ 1 := by
  cases h
  exact le_rfl

theorem IsLength.nesting_le {x : Double} (h : v.IsLength x) : v.nesting ≤ 1 := by
  cases h
  exact Nat.zero_le 1

theorem IsSegments.nesting_le {count : UInt32} (h : v.IsSegments count) : v.nesting ≤ 1 := by
  cases h
  exact Nat.zero_le 1

section

variable {α : Type} {key : String} {denotes : Json → α → Prop} {b : ℕ}

theorem HasType.nesting_le {type : String} (h : v.HasType type) (hw : v.get? "type" = some w) :
    w.nesting ≤ b := by
  obtain rfl := Option.some.inj (h.symm.trans hw)
  exact Nat.zero_le b

theorem Field.nesting_le {a : α} (h : v.Field key denotes a) (hw : v.get? key = some w)
    (hle : ∀ w a, denotes w a → w.nesting ≤ b) : w.nesting ≤ b := by
  obtain ⟨w', hw', ha⟩ := h
  obtain rfl := Option.some.inj (hw'.symm.trans hw)
  exact hle w' a ha

theorem OptionalField.nesting_le {a : Option α} (h : v.OptionalField key denotes a)
    (hw : v.get? key = some w) (hle : ∀ w a, denotes w a → w.nesting ≤ b) : w.nesting ≤ b := by
  cases a with
  | none => cases h.symm.trans hw
  | some a => exact Field.nesting_le h hw hle

end

/-- Under the keys of a shape are numbers and vectors. -/
theorem IsShape.nesting_le {s : Shape Double} (hd : v.HasDistinctKeys) (h : v.IsShape s)
    (hkeys : ∀ key w, v.get? key = some w → key ∈ Node.keys (Node.shape s).kind) :
    v.nesting ≤ 2 := by
  have hobject := (IsNode.shape h).hasType.exists_eq_object
  refine hd.nesting_le (fun key w hw => ?_) hobject
  have hkey := hkeys key w hw
  cases h with
  | cuboid htype hsize hcenter =>
    change key ∈ ["type", "size", "center"] at hkey
    simp only [List.mem_cons, List.not_mem_nil, or_false] at hkey
    rcases hkey with rfl | rfl | rfl
    · exact htype.nesting_le hw
    · exact hsize.nesting_le hw fun _ _ h => h.nesting_le
    · exact hcenter.nesting_le hw fun _ _ h => h.nesting_le
  | sphere htype hradius hcenter hsegments =>
    change key ∈ ["type", "radius", "center", "segments"] at hkey
    simp only [List.mem_cons, List.not_mem_nil, or_false] at hkey
    rcases hkey with rfl | rfl | rfl | rfl
    · exact htype.nesting_le hw
    · exact hradius.nesting_le hw fun _ _ h => h.nesting_le
    · exact hcenter.nesting_le hw fun _ _ h => h.nesting_le
    · exact hsegments.nesting_le hw fun _ _ h => h.nesting_le
  | cylinder htype hheight hradius hcenter hsegments =>
    change key ∈ ["type", "height", "radius", "center", "segments"] at hkey
    simp only [List.mem_cons, List.not_mem_nil, or_false] at hkey
    rcases hkey with rfl | rfl | rfl | rfl | rfl
    · exact htype.nesting_le hw
    · exact hheight.nesting_le hw fun _ _ h => h.nesting_le
    · exact hradius.nesting_le hw fun _ _ h => h.nesting_le
    · exact hcenter.nesting_le hw fun _ _ h => h.nesting_le
    · exact hsegments.nesting_le hw fun _ _ h => h.nesting_le

/-- Under the keys of a combination are its children. -/
theorem IsCombination.nesting_le {combination : Combination} {items : List Json} {b : ℕ}
    (hd : v.HasDistinctKeys) (h : v.IsCombination combination)
    (hkeys : ∀ key w, v.get? key = some w → key ∈ Node.keys combination.service.name)
    (hfield : v.get? "children" = some (.array items)) (hbelow : nestingOfItems items ≤ b) :
    v.nesting ≤ b + 2 := by
  have htype : v.HasType combination.service.name := by cases h <;> assumption
  have hown : Node.keys combination.service.name = ["type", "children"] := by
    cases combination <;> rfl
  refine hd.nesting_le (fun key w hw => ?_) htype.exists_eq_object
  have hkey := hkeys key w hw
  simp only [hown, List.mem_cons, List.not_mem_nil, or_false] at hkey
  rcases hkey with rfl | rfl
  · exact htype.nesting_le hw
  · obtain rfl := Option.some.inj (hfield.symm.trans hw)
    exact Nat.succ_le_succ hbelow

/-- Under the keys of a motion are a vector and its child. -/
theorem IsMotion.nesting_le {motion : Motion Double} {b : ℕ} (hd : v.HasDistinctKeys)
    (h : v.IsMotion motion)
    (hkeys : ∀ key u, v.get? key = some u → key ∈ Node.keys motion.service.name)
    (hfield : v.get? "child" = some w) (hbelow : w.nesting ≤ b) (hb : 1 ≤ b) :
    v.nesting ≤ b + 1 := by
  have htype : v.HasType motion.service.name := by cases h <;> assumption
  -- all three motions have a vector under a key of their own
  have hvector {key : String} {vector : Vec3 Double}
      (hown : Node.keys motion.service.name = ["type", key, "child"])
      (hv : v.Field key IsVector vector) : v.nesting ≤ b + 1 := by
    refine hd.nesting_le (fun key' u hu => ?_) htype.exists_eq_object
    have hkey := hkeys key' u hu
    simp only [hown, List.mem_cons, List.not_mem_nil, or_false] at hkey
    rcases hkey with rfl | rfl | rfl
    · exact htype.nesting_le hu
    · exact hv.nesting_le hu fun _ _ h => h.nesting_le.trans hb
    · obtain rfl := Option.some.inj (hfield.symm.trans hu)
      exact hbelow
  cases h with
  | translate _ hv => exact hvector rfl hv
  | rotate _ hv => exact hvector rfl hv
  | scale _ hv => exact hvector rfl hv

section

variable {d : Json}

mutual

/-- Each level of nodes needs two brackets: that of the node, and that of its children or of a
vector. -/
theorem IsBare.nesting_node (hbare : d.IsBare) : (n : Node Double) → ∀ level path v,
    d.IsNodeAt level path v → v.HasDistinctKeys → v.IsNode n → v.nesting ≤ 2 * n.levels
  | .shape s, level, path, v, hat, hd, h => by
    have hkeys := hbare.nodes level path v _ hat h.hasType
    cases h with
    | shape hs => exact hs.nesting_le hd hkeys
  | .combine combination ns, level, path, v, hat, hd, h => by
    have htype := h.hasType
    have hkeys := hbare.nodes level path v _ hat htype
    have hmem : combination.service.name ∈ ["union", "subtract", "intersect"] := by
      cases combination <;> decide
    cases h with
    | @combine _ _ items _ hcombination hfield _ hitems =>
      have hbelow := hbare.nestingOfItems_le ns items
        (fun i w hw => ⟨level + 1, _, hat.item htype hmem hfield hw⟩)
        (fun w hw => (hd.of_get? hfield).of_mem hw) hitems
      have hle := hcombination.nesting_le hd hkeys hfield hbelow
      exact hle.trans (by rw [Node.levels]; omega)
  | .move motion child, level, path, v, hat, hd, h => by
    have htype := h.hasType
    have hkeys := hbare.nodes level path v _ hat htype
    have hmem : motion.service.name ∈ ["translate", "rotate", "scale"] := by
      cases motion <;> simp [Motion.service, Service.name]
    have hpos := child.levels_pos
    cases h with
    | @move _ w _ _ hmotion hfield hchild =>
      have hbelow := hbare.nesting_node child (level + 1) _ w (hat.child htype hmem hfield)
        (hd.of_get? hfield) hchild
      have hle := hmotion.nesting_le hd hkeys hfield hbelow (by omega)
      exact hle.trans (by rw [Node.levels]; omega)

theorem IsBare.nestingOfItems_le (hbare : d.IsBare) : (ns : List (Node Double)) →
    ∀ items : List Json,
    (∀ (i : ℕ) (w : Json), items[i]? = some w → ∃ level path, d.IsNodeAt level path w) →
    (∀ w ∈ items, w.HasDistinctKeys) → List.Forall₂ IsNode items ns →
    nestingOfItems items ≤ 2 * Node.levelsOfAll ns
  | [], _, _, _, h => by
    cases h
    exact le_rfl
  | n :: rest, _, hat, hd, h => by
    cases h with
    | @cons w _ others _ hn hrest =>
      obtain ⟨hd, hds⟩ := List.forall_mem_cons.mp hd
      obtain ⟨level, path, hw⟩ := hat 0 w rfl
      have hfirst := hbare.nesting_node n level path w hw hd hn
      have hothers := hbare.nestingOfItems_le rest others (fun i => hat (i + 1)) hds hrest
      refine max_le (hfirst.trans ?_) (hothers.trans ?_)
      · exact Nat.mul_le_mul_left 2 (le_max_left _ _)
      · exact Nat.mul_le_mul_left 2 (le_max_right _ _)

end

/-- **A recipe without other keys needs at most 121 brackets**: two for each of its levels, and that
of the document. -/
theorem IsBare.nesting_le {r : Recipe Double} (hbare : d.IsBare) (hd : d.HasDistinctKeys)
    (h : d.IsRecipe r) : d.nesting ≤ 121 := by
  obtain ⟨⟨n, hversion, -⟩, -, ⟨units, hunits, -⟩, htext, ⟨w, hroot, hnode⟩, hlevels⟩ := h
  have hobject : ∃ fields, d = .object fields := by
    cases d with
    | object fields => exact ⟨fields, rfl⟩
    | _ => cases hversion
  refine hd.nesting_le (fun key v hv => ?_) hobject
  have hkey := hbare.own key v hv
  simp only [List.mem_cons, List.not_mem_nil, or_false] at hkey
  rcases hkey with rfl | rfl | rfl | rfl
  · obtain rfl := Option.some.inj (hversion.symm.trans hv)
    exact Nat.zero_le _
  · refine hunits.nesting_le hv fun w u hw => ?_
    cases hw <;> exact Nat.zero_le _
  · refine htext.nesting_le hv fun w s hw => ?_
    cases hw
    exact Nat.zero_le _
  · obtain rfl := Option.some.inj (hroot.symm.trans hv)
    have hle := hbare.nesting_node r.root 1 .root w (.root hroot) (hd.of_get? hroot) hnode
    omega

end

/-! ### Values that are nothing but brackets -/

/-- Arrays inside each other. -/
def tower : ℕ → Json
  | 0 => .array []
  | n + 1 => .array [tower n]

theorem nesting_tower (n : ℕ) : (tower n).nesting = n + 1 := by
  induction n with
  | zero => rfl
  | succ n ih => simp [tower, nesting, nestingOfItems, ih]

theorem hasDistinctKeys_tower (n : ℕ) : (tower n).HasDistinctKeys := by
  induction n with
  | zero => exact .array (List.forall_mem_nil _)
  | succ n ih => exact .array (List.forall_mem_singleton.mpr ih)

theorem hasNumbers_tower (P : Number → Prop) (n : ℕ) : (tower n).HasNumbers P := by
  induction n with
  | zero => trivial
  | succ n ih => exact ⟨ih, trivial⟩

/-! ### A small document -/

/-- A cube. -/
def cube : Json := .object
  [("type", .string "cuboid"), ("size", .array [.ofNat 1, .ofNat 1, .ofNat 1])]

/-- The document with the cube. There is a bracket in its name. -/
def cubeDocument : Json := .object
  [("version", .ofNat 1), ("name", .string "\"[é"), ("root", cube)]

theorem hasNumbers_cube : cube.HasNumbers Number.ReadsBack :=
  ⟨trivial, ⟨Number.readsBack_natural 1, Number.readsBack_natural 1, Number.readsBack_natural 1,
    trivial⟩, trivial⟩

theorem hasDistinctKeys_cube : cube.HasDistinctKeys := by
  have hone (v : Json) (hv : v ∈ [Json.ofNat 1, Json.ofNat 1, Json.ofNat 1]) :
      v.HasDistinctKeys := by
    obtain rfl : v = Json.ofNat 1 := by simpa using hv
    exact .number _
  refine .object (by simp) ?_
  simp only [List.forall_mem_cons]
  exact ⟨.string _, .array hone, List.forall_mem_nil _⟩

theorem isNode_cube : cube.IsNode (.shape (.cuboid ⟨(Number.natural 1).toDouble,
    (Number.natural 1).toDouble, (Number.natural 1).toDouble⟩ none)) :=
  .shape (.cuboid rfl ⟨_, rfl, .numbers _ _ _⟩ rfl)

theorem hasNumbers_cubeDocument : cubeDocument.HasNumbers Number.ReadsBack :=
  ⟨Number.readsBack_natural 1, trivial, hasNumbers_cube, trivial⟩

theorem hasDistinctKeys_cubeDocument : cubeDocument.HasDistinctKeys := by
  refine .object (by simp) ?_
  simp only [List.forall_mem_cons]
  exact ⟨.number _, .string _, hasDistinctKeys_cube, List.forall_mem_nil _⟩

theorem isBare_cubeDocument (f : Number → Number) : (cubeDocument.reread f).IsBare := by
  have hroot : (cubeDocument.reread f).get? "root" = some (cube.reread f) := by
    rw [get?_reread hasDistinctKeys_cubeDocument]
    rfl
  have htype : (cube.reread f).HasType "cuboid" :=
    HasType.reread hasDistinctKeys_cube isNode_cube.hasType
  have hcube {level : ℕ} {path : Path} {v : Json}
      (h : (cubeDocument.reread f).IsNodeAt level path v) : v = cube.reread f := by
    induction h with
    | root h => exact (Option.some.inj (hroot.symm.trans h)).symm
    | item _ hv hmem _ _ ih =>
      subst ih
      obtain rfl := Json.string.inj (Option.some.inj (htype.symm.trans hv))
      exact absurd hmem (by decide)
    | child _ hv hmem _ ih =>
      subst ih
      obtain rfl := Json.string.inj (Option.some.inj (htype.symm.trans hv))
      exact absurd hmem (by decide)
  refine ⟨fun key v hv => ?_, fun level path v type hv hvtype key w hw => ?_⟩
  · rw [get?_reread hasDistinctKeys_cubeDocument] at hv
    obtain ⟨v', hv', -⟩ := Option.map_eq_some_iff.mp hv
    have hmem := List.mem_map_of_mem (f := Prod.fst) (mem_of_field? hv')
    simp only [List.map_cons, List.map_nil, List.mem_cons, List.not_mem_nil, or_false] at hmem ⊢
    tauto
  · obtain rfl := hcube hv
    obtain rfl := Json.string.inj (Option.some.inj (htype.symm.trans hvtype))
    rw [get?_reread hasDistinctKeys_cube] at hw
    obtain ⟨w', hw', -⟩ := Option.map_eq_some_iff.mp hw
    have hmem := List.mem_map_of_mem (f := Prod.fst) (mem_of_field? hw')
    change key ∈ ["type", "size", "center"]
    simp only [List.map_cons, List.map_nil, List.mem_cons, List.not_mem_nil, or_false] at hmem ⊢
    tauto

end Json

/-! ### The check -/

namespace Recipe

open Json

variable {text : String} {r : Recipe Double} {w : Json}

/-- Values are never refused for their text. -/
theorem ofJson_ne_malformed {v : Json} {path : Path} {reason : String} :
    ofJson v ≠ .error ⟨path, .malformed reason⟩ := by
  intro h
  have htrue := blames_ofJson v _ h
  cases htrue with
  | value _ hvalue => cases hvalue

/-- What is read as a recipe. -/
theorem ofText_eq_ok : ofText text = .ok r ↔ bracketDepth text.toList ≤ Recipe.nestingLimit ∧
    ∃ v, Json.read text.toList = .ok v ∧ ofJson v = .ok r := by
  unfold ofText
  dsimp only
  split_ifs with hdeep
  · exact iff_of_false nofun fun h => absurd h.1 (not_le.mpr hdeep)
  · cases Json.read text.toList with
    | error fault => simp
    | ok v => simp [not_lt.mp hdeep]

theorem decode_eq_ok :
    decode text = .ok r ↔ ∃ v, Json.read text.toList = .ok v ∧ ofJson v = .ok r := by
  simp only [decode, Json.read, bind_eq_ok_iff, mapError_eq_ok_iff, return_eq_ok_iff, Prod.exists]
  constructor
  · intro h
    obtain ⟨v, rest, hvalue, _, hrecipe, u, hblank, rfl⟩ := h
    exact ⟨v, ⟨v, rest, hvalue, u, hblank, rfl⟩, hrecipe⟩
  · intro h
    obtain ⟨_, ⟨v, rest, hvalue, u, hblank, rfl⟩, hrecipe⟩ := h
    exact ⟨v, rest, hvalue, r, hrecipe, u, hblank, rfl⟩

/-- A text with too many brackets is refused before it is read. -/
theorem ofText_of_lt (h : Recipe.nestingLimit < bracketDepth text.toList) :
    ofText text = .error ⟨.document, .tooDeep⟩ := if_pos h

/-- A text without repeated and other keys has brackets enough. -/
theorem bracketDepth_le_of_isBare (hw : SpellsText text.toList w) (hd : w.HasDistinctKeys)
    (hbare : w.asRead.IsBare) (hr : ofJson w.asRead = .ok r) : bracketDepth text.toList ≤ 121 := by
  rw [bracketDepth_eq_nesting hw, ← hd.nesting_asRead]
  exact hbare.nesting_le hd.asRead (isRecipe_of_ofJson hr)

/-- Only faults that are not about brackets are told. -/
theorem exists_fault_of_malformed {path : Path} {reason : String}
    (h : ofText text = .error ⟨path, .malformed reason⟩) :
    ∃ fault, Json.read text.toList = .error fault ∧ fault.kind ≠ .recursionLimit ∧
      path = .document ∧ reason = fault.text text.toList := by
  by_cases hdeep : Recipe.nestingLimit < bracketDepth text.toList
  · cases (ofText_of_lt hdeep).symm.trans h
  · cases hread : Json.read text.toList with
    | ok v =>
      simp only [ofText, if_neg hdeep, hread] at h
      exact absurd h ofJson_ne_malformed
    | error fault =>
      simp only [ofText, if_neg hdeep, hread] at h
      cases h
      refine ⟨fault, rfl, fun hkind => hdeep ?_, rfl, rfl⟩
      exact Nat.lt_of_lt_of_le (by decide) (le_bracketDepth_of_read hread hkind)

/-- **What is counted are the containers that are open.** The reader takes the texts of the grammar
that have at most 127 brackets inside each other. After each part of a text that it has taken the
open brackets are the open containers. On the whole they are the nesting of what is written, and of
what is read if no key is repeated. No text is refused as malformed because of its brackets, and no
recipe without repeated and other keys is refused for them at all. -/
theorem bracketDepth_agrees (text : String) :
    (∀ v, Json.read text.toList = .ok v ↔
      ∃ w, SpellsText text.toList w ∧ w.asRead = v ∧ w.nesting ≤ 127) ∧
    (∀ pre depth, pre <+: text.toList → Takes pre depth → (Nesting.ofText pre).depth = depth) ∧
    (∀ w, SpellsText text.toList w → bracketDepth text.toList = w.nesting ∧
      w.asRead.nesting ≤ w.nesting ∧ (w.HasDistinctKeys → w.asRead.nesting = w.nesting)) ∧
    (∀ path reason, ofText text = .error ⟨path, .malformed reason⟩ →
      ∃ fault, Json.read text.toList = .error fault ∧ fault.kind ≠ .recursionLimit ∧
        path = .document ∧ reason = fault.text text.toList) ∧
    ∀ w r, SpellsText text.toList w → w.HasDistinctKeys → w.asRead.IsBare →
      ofJson w.asRead = .ok r → bracketDepth text.toList ≤ 121 ∧ ofText text = .ok r := by
  refine ⟨read_eq_ok_iff text.toList, fun pre depth _ h => h.depth_ofText, ?nested,
    fun path reason => exists_fault_of_malformed, ?accepted⟩
  case nested =>
    exact fun w hw =>
      ⟨bracketDepth_eq_nesting hw, nesting_asRead_le w, fun hd => hd.nesting_asRead⟩
  case accepted =>
    intro w r hw hd hbare hr
    have hdepth := bracketDepth_le_of_isBare hw hd hbare hr
    have hle : w.nesting ≤ 127 := by
      rw [← bracketDepth_eq_nesting hw]
      exact hdepth.trans (by decide)
    exact ⟨hdepth, ofText_eq_ok.mpr ⟨hdepth.trans (by decide), _, hw.read_eq hle, hr⟩⟩

/-- The root is there twice. The first one is nothing but brackets, and nothing is read of it. -/
theorem exists_refused_repeated : ∃ (text : String) (v : Json) (r : Recipe Double),
    text = (Json.object [("version", .ofNat 1), ("root", tower 121), ("root", .object
      [("type", .string "cuboid"), ("size", .array [.ofNat 1, .ofNat 1, .ofNat 1])])]).compact ∧
    Json.read text.toList = .ok v ∧ ofJson v = .ok r ∧ v.nesting = 3 ∧
    bracketDepth text.toList = 123 ∧ ofText text = .error ⟨.document, .tooDeep⟩ := by
  set written : Json := .object _ with hwritten
  -- the same without the first root
  set plain : Json := .object [("version", .ofNat 1), ("root", cube)] with hplain
  have hnumbers : written.HasNumbers Number.ReadsBack :=
    ⟨Number.readsBack_natural 1, hasNumbers_tower _ 121, hasNumbers_cube, trivial⟩
  have hnesting : written.nesting = 123 := by
    simp [hwritten, nesting, nestingOfFields, nestingOfItems, nesting_tower, Json.ofNat]
  have hdepth : bracketDepth written.compact.toList = 123 := by
    rw [bracketDepth_compact hnumbers, hnesting]
  have hread := read_compact hnumbers (by rw [hnesting]; decide)
  have hsame : written.reread Number.reread = plain.reread Number.reread :=
    congrArg Json.object (insertField_insertField _ _ _ _)
  have hd : plain.HasDistinctKeys := by
    refine .object (by simp) ?_
    simp only [List.forall_mem_cons]
    exact ⟨.number _, hasDistinctKeys_cube, List.forall_mem_nil _⟩
  have hr : plain.IsRecipe (Recipe.mk 1 .mm none _) :=
    ⟨⟨_, rfl, by decide⟩, rfl, ⟨none, rfl, rfl⟩, rfl, ⟨_, rfl, isNode_cube⟩, by decide⟩
  rw [hsame] at hread
  refine ⟨_, _, _, rfl, hread, ofJson_of_isRecipe (hr.reread Number.toDouble_reread hd), ?_, hdepth,
    ofText_of_lt (by rw [hdepth]; decide)⟩
  rw [Json.reread, hd.mapNumbers.nesting_asRead, nesting_mapNumbers]
  rfl

theorem exists_ofJson_cubeDocument :
    ∃ r, ofJson (cubeDocument.reread Number.reread) = .ok r := by
  have hr : cubeDocument.IsRecipe (Recipe.mk 1 .mm (some "\"[é") _) :=
    ⟨⟨_, rfl, by decide⟩, rfl, ⟨none, rfl, rfl⟩, .intro _ ⟨rfl, .string _⟩, ⟨_, rfl, isNode_cube⟩,
      by decide⟩
  exact ⟨_, ofJson_of_isRecipe (hr.reread Number.toDouble_reread hasDistinctKeys_cubeDocument)⟩

/-- A bracket in the name of the document does not count. -/
theorem bracketDepth_agrees_cubeDocument : ∃ (text : String) (w : Json) (r : Recipe Double),
    text = cubeDocument.compact ∧ SpellsText text.toList w ∧ w.HasDistinctKeys ∧
    w.asRead.IsBare ∧ ofJson w.asRead = .ok r ∧ Json.read text.toList = .ok w.asRead ∧
    (Nesting.ofText text.toList).depth = 0 ∧ bracketDepth text.toList = w.nesting ∧
    w.asRead.nesting = w.nesting ∧ bracketDepth text.toList ≤ 121 ∧ ofText text = .ok r := by
  have hw := spellsText_compact_reread hasNumbers_cubeDocument
  have hd := hasDistinctKeys_cubeDocument.mapNumbers (f := Number.reread)
  obtain ⟨r, hread⟩ := exists_ofJson_cubeDocument
  obtain ⟨hreads, htakes, hnested, -, haccepted⟩ := bracketDepth_agrees cubeDocument.compact
  have hbare := isBare_cubeDocument Number.reread
  have hle : (cubeDocument.mapNumbers Number.reread).nesting ≤ 127 := by
    rw [nesting_mapNumbers]
    decide
  have hvalue := (hreads _).mpr ⟨_, hw, rfl, hle⟩
  obtain ⟨hdepth, -, hkept⟩ := hnested _ hw
  exact ⟨_, _, _, rfl, hw, hd, hbare, hread, hvalue,
    htakes _ 0 (List.prefix_refl _) (.complete hvalue), hdepth, hkept hd,
    haccepted _ _ hw hd hbare hread⟩

/-- **What the check does to the documents that are accepted.** A text is read as a recipe if it is
decoded as this recipe and does not have too many brackets. One with too many is refused. Where no
key is repeated and none is there that the grammar does not have, both accept the same texts. -/
theorem ofText_eq_ok_iff (text : String) (r : Recipe Double) :
    (ofText text = .ok r ↔ decode text = .ok r ∧ bracketDepth text.toList ≤ 122) ∧
    (122 < bracketDepth text.toList → ofText text = .error ⟨.document, .tooDeep⟩) ∧
    ∀ w, SpellsText text.toList w → w.HasDistinctKeys → w.asRead.IsBare →
      (ofText text = .ok r ↔ decode text = .ok r) := by
  have hiff : ofText text = .ok r ↔ decode text = .ok r ∧ bracketDepth text.toList ≤ 122 := by
    rw [ofText_eq_ok, decode_eq_ok, and_comm]
    exact Iff.rfl
  refine ⟨hiff, ofText_of_lt, fun w hw hd hbare => ?_⟩
  rw [hiff, and_iff_left_iff_imp]
  intro hdecode
  obtain ⟨v, hread, hr⟩ := decode_eq_ok.mp hdecode
  obtain ⟨rfl, -⟩ := hw.eq_asRead hread
  exact (bracketDepth_le_of_isBare hw hd hbare hr).trans (by decide)

/-- Under a key that the grammar does not have is nothing but brackets. They do no harm where the
document is decoded, but they are counted. -/
theorem exists_refused_other : ∃ (text : String) (r : Recipe Double),
    text = (Json.object [("version", .ofNat 1), ("root", .object
      [("type", .string "cuboid"), ("size", .array [.ofNat 1, .ofNat 1, .ofNat 1])]),
      ("x", tower 121)]).compact ∧
    decode text = .ok r ∧ bracketDepth text.toList = 123 ∧
    ofText text = .error ⟨.document, .tooDeep⟩ := by
  set written : Json := .object _ with hwritten
  have hnumbers : written.HasNumbers Number.ReadsBack :=
    ⟨Number.readsBack_natural 1, hasNumbers_cube, hasNumbers_tower _ 121, trivial⟩
  have hnesting : written.nesting = 123 := by
    simp [hwritten, nesting, nestingOfFields, nestingOfItems, nesting_tower, Json.ofNat]
  have hdepth : bracketDepth written.compact.toList = 123 := by
    rw [bracketDepth_compact hnumbers, hnesting]
  have hread := read_compact hnumbers (by rw [hnesting]; decide)
  have hd : written.HasDistinctKeys := by
    refine .object (by simp) ?_
    simp only [List.forall_mem_cons]
    exact ⟨.number _, hasDistinctKeys_cube, hasDistinctKeys_tower _, List.forall_mem_nil _⟩
  have hr : written.IsRecipe (Recipe.mk 1 .mm none _) :=
    ⟨⟨_, rfl, by decide⟩, rfl, ⟨none, rfl, rfl⟩, rfl, ⟨_, rfl, isNode_cube⟩, by decide⟩
  have hrecipe := ofJson_of_isRecipe (hr.reread Number.toDouble_reread hd)
  exact ⟨_, _, rfl, decode_eq_ok.mpr ⟨_, hread, hrecipe⟩, hdepth,
    ofText_of_lt (by rw [hdepth]; decide)⟩

/-- Without repeated and other keys both accept the same. -/
theorem ofText_eq_ok_iff_cubeDocument : ∃ (text : String) (w : Json) (r : Recipe Double),
    text = cubeDocument.compact ∧ SpellsText text.toList w ∧ w.HasDistinctKeys ∧
    w.asRead.IsBare ∧ decode text = .ok r ∧ ofText text = .ok r := by
  have hw := spellsText_compact_reread hasNumbers_cubeDocument
  have hd := hasDistinctKeys_cubeDocument.mapNumbers (f := Number.reread)
  have hbare := isBare_cubeDocument Number.reread
  obtain ⟨r, hread⟩ := exists_ofJson_cubeDocument
  have hvalue := read_compact hasNumbers_cubeDocument (by decide)
  have hdecode := decode_eq_ok.mpr ⟨_, hvalue, hread⟩
  obtain ⟨-, -, hsame⟩ := ofText_eq_ok_iff cubeDocument.compact _
  exact ⟨_, _, _, rfl, hw, hd, hbare, hdecode, (hsame _ hw hd hbare).mpr hdecode⟩

end Recipe

end Solids
