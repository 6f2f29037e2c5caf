import Solids.Proofs.Checks
import Solids.Proofs.DocumentOrder
import Solids.Proofs.Location
/-!
# Solids.Proofs.PathText

**The text of a place says which place it is.** A step is written with a dot or an opening bracket
in front. If no key has such a character in it, then the last one of a text is where its last step
begins, and from there the steps are read off one by one.

Main definitions:

* `Path.IsPlain` — all keys on the way to a place are without these characters;
* `RecipeError.path?` — the place that an error names.

Main statements:

* `Path.text_inj` — plain places with the same text are the same;
* `Recipe.text_identifies_place` — the places of a document and of what is reported of it are plain.

A key that is the beginning of another one, such as `child` of `children`, is no danger: what comes
after it in a text begins with a dot or a bracket, or is the end.
-/

namespace Solids

namespace Path

variable {p q : Path}

/-- The character stands in front of a step. -/
def opensStep (c : Char) : Bool := c = '.' || c = '['

/-- A key with no character in it that stands in front of a step. -/
def IsPlainKey (name : String) : Prop := '.' ∉ name.toList ∧ '[' ∉ name.toList

instance (name : String) : Decidable (IsPlainKey name) := inferInstanceAs (Decidable (_ ∧ _))

/-- All keys on the way to a place are plain. -/
def IsPlain : Path → Prop
  | .document => True
  | .key parent name => parent.IsPlain ∧ IsPlainKey name
  | .index parent _ => parent.IsPlain

instance : (p : Path) → Decidable p.IsPlain
  | .document => .isTrue trivial
  | .key parent name =>
    have := instDecidableIsPlain parent
    inferInstanceAs (Decidable (parent.IsPlain ∧ IsPlainKey name))
  | .index parent _ => instDecidableIsPlain parent

/-! ### The last step of a text -/

theorem toList_text_key (p : Path) (name : String) :
    (p.key name).text.toList = p.text.toList ++ '.' :: name.toList := by
  simp [text]

theorem toList_text_index (p : Path) (position : ℕ) :
    (p.index position).text.toList =
      p.text.toList ++ '[' :: ((toString position).toList ++ [']']) := by
  simp [text]

theorem IsPlainKey.not_opensStep {name : String} (h : IsPlainKey name) :
    ∀ c ∈ name.toList, opensStep c = false := by
  intro c hc
  simp only [opensStep, Bool.or_eq_false_iff, decide_eq_false_iff_not]
  exact ⟨fun hdot => h.1 (hdot ▸ hc), fun hbracket => h.2 (hbracket ▸ hc)⟩

/-- No step begins within a position. -/
theorem not_opensStep_position (position : ℕ) :
    ∀ c ∈ (toString position).toList ++ [']'], opensStep c = false := by
  intro c hc
  rcases List.mem_append.mp hc with hdigit | hclosing
  · rw [Nat.toString_eq_ofList_toDigits, String.toList_ofList] at hdigit
    have hdigit : c.isDigit = true := Nat.isDigit_of_mem_toDigits (by decide) (by decide) hdigit
    have hne (d : Char) (hd : d.isDigit = false) : c ≠ d := by
      rintro rfl
      rw [hdigit] at hd
      cases hd
    simp only [opensStep, Bool.or_eq_false_iff, decide_eq_false_iff_not]
    exact ⟨hne '.' (by decide), hne '[' (by decide)⟩
  · obtain rfl := List.mem_singleton.mp hclosing
    decide

/-- Where the last step begins there is only one way to cut a text in two. -/
theorem eq_of_append_step {before before' step step' : List Char} {c c' : Char}
    (hc : opensStep c = true) (hc' : opensStep c' = true)
    (hstep : ∀ d ∈ step, opensStep d = false) (hstep' : ∀ d ∈ step', opensStep d = false)
    (h : before ++ c :: step = before' ++ c' :: step') :
    before = before' ∧ c = c' ∧ step = step' := by
  induction before generalizing before' with
  | nil =>
    cases before' with
    | nil =>
      obtain ⟨rfl, rfl⟩ := List.cons.inj h
      exact ⟨rfl, rfl, rfl⟩
    | cons d before' =>
      obtain ⟨-, rfl⟩ := List.cons.inj h
      exact absurd (hstep c' (by simp)) (by simp [hc'])
  | cons d before ih =>
    cases before' with
    | nil =>
      obtain ⟨-, rfl⟩ := List.cons.inj h
      exact absurd (hstep' c (by simp)) (by simp [hc])
    | cons d' before' =>
      obtain ⟨rfl, hrest⟩ := List.cons.inj h
      obtain ⟨rfl, hsame⟩ := ih hrest
      exact ⟨rfl, hsame⟩

/-- No step begins in the text of the document. -/
theorem toList_text_document_ne {before step : List Char} {c : Char} (hc : opensStep c = true) :
    document.text.toList ≠ before ++ c :: step := by
  intro h
  have hmem : c ∈ document.text.toList := h ▸ List.mem_append_right before List.mem_cons_self
  obtain rfl := List.mem_singleton.mp hmem
  cases hc

/-- **Plain places with the same text are the same.** -/
theorem text_inj (hp : p.IsPlain) (hq : q.IsPlain) : p.text = q.text ↔ p = q := by
  refine ⟨fun h => ?_, congrArg text⟩
  rw [← String.toList_inj] at h
  induction p generalizing q with
  | document =>
    cases q with
    | document => rfl
    | key parent name =>
      rw [toList_text_key] at h
      exact absurd h (toList_text_document_ne rfl)
    | index parent position =>
      rw [toList_text_index] at h
      exact absurd h (toList_text_document_ne rfl)
  | key parent name ih =>
    rw [toList_text_key] at h
    cases q with
    | document => exact absurd h.symm (toList_text_document_ne rfl)
    | key parent' name' =>
      rw [toList_text_key] at h
      obtain ⟨hparent, -, hname⟩ :=
        eq_of_append_step rfl rfl hp.2.not_opensStep hq.2.not_opensStep h
      rw [ih hp.1 hq.1 hparent, String.toList_inj.mp hname]
    | index parent' position =>
      rw [toList_text_index] at h
      obtain ⟨-, hopening, -⟩ :=
        eq_of_append_step rfl rfl hp.2.not_opensStep (not_opensStep_position position) h
      cases hopening
  | index parent position ih =>
    rw [toList_text_index] at h
    cases q with
    | document => exact absurd h.symm (toList_text_document_ne rfl)
    | key parent' name =>
      rw [toList_text_key] at h
      obtain ⟨-, hopening, -⟩ :=
        eq_of_append_step rfl rfl (not_opensStep_position position) hq.2.not_opensStep h
      cases hopening
    | index parent' position' =>
      rw [toList_text_index] at h
      obtain ⟨hparent, -, hposition⟩ := eq_of_append_step rfl rfl (not_opensStep_position position)
        (not_opensStep_position position') h
      have hdigits := String.toList_inj.mp (List.append_cancel_right hposition)
      rw [ih (q := parent') hp hq hparent, Nat.repr_injective hdigits]

theorem nodup_text {places : List Path} (hplain : ∀ p ∈ places, p.IsPlain) (h : places.Nodup) :
    (places.map text).Nodup :=
  h.map_on fun p hp q hq htext => (text_inj (hplain p hp) (hplain q hq)).mp htext

end Path

/-! ### The places of a document -/

namespace Slot

/-- The keys of documents are plain. -/
theorem isPlainKey_ofDocument : ∀ s ∈ ofDocument, Path.IsPlainKey s.key := by decide

/-- The keys of nodes are plain, whatever type they have. -/
theorem isPlainKey_ofNode (fields : List (String × Json)) :
    ∀ s ∈ ofNode fields, Path.IsPlainKey s.key := by
  unfold ofNode
  split
  · unfold ofType
    split <;> decide
  · decide

end Slot

/-- All of these checks are of plain places. -/
def ArePlain (checks : List Check) : Prop := ∀ c ∈ checks, c.path.IsPlain

section ArePlain

variable {d : Json} {place : Path} {below : Path → Option Mismatch → List Check}

theorem ArePlain.nil : ArePlain [] := List.forall_mem_nil _

theorem ArePlain.cons {checks : List Check} (hplace : place.IsPlain) (h : ArePlain checks)
    (expected : Expected) (absent : Option Mismatch) :
    ArePlain (⟨place, expected, absent⟩ :: checks) :=
  List.forall_mem_cons.mpr ⟨hplace, h⟩

theorem ArePlain.flatMap {ι : Type} {parts : List ι} {f : ι → List Check}
    (h : ∀ a ∈ parts, ArePlain (f a)) : ArePlain (parts.flatMap f) := by
  intro c hc
  obtain ⟨a, ha, hc⟩ := List.mem_flatMap.mp hc
  exact h a ha c hc

variable (hbelow : ∀ place absent, place.IsPlain → ArePlain (below place absent))

include hbelow

theorem SlotContent.arePlain_checks (content : SlotContent) (hplace : place.IsPlain)
    (absent : Option Mismatch) : ArePlain (content.checks d below place absent) := by
  cases content with
  | single expected => exact .cons hplace .nil expected absent
  | vector =>
    refine .cons hplace ?_ .triple absent
    rw [Json.components]
    split
    · rw [List.map_eq_flatMap]
      refine .flatMap fun i _ => ?_
      have hitem : (place.index i).IsPlain := hplace
      exact .cons hitem .nil .number none
    · exact .nil
  | node => exact hbelow place absent hplace
  | nodes =>
    exact .cons hplace (.flatMap fun i _ => hbelow (place.index i) none hplace) .items absent

theorem Json.arePlain_objectChecks {slots : List (String × Json) → List Slot}
    (hslots : ∀ fields, ∀ s ∈ slots fields, Path.IsPlainKey s.key) (hplace : place.IsPlain)
    (absent : Option Mismatch) : ArePlain (d.objectChecks below slots place absent) := by
  refine .cons hplace ?_ .object absent
  split
  · next fields _ =>
    have hkey : ∀ s ∈ slots fields, (place.key s.key).IsPlain := fun s hs =>
      ⟨hplace, hslots fields s hs⟩
    exact .flatMap fun s hs => s.content.arePlain_checks hbelow (hkey s hs) _
  · exact .nil

end ArePlain

theorem Node.arePlain_checks (d : Json) (levels : ℕ) (place : Path) (absent : Option Mismatch)
    (hplace : place.IsPlain) : ArePlain (Node.checks d levels place absent) := by
  induction levels generalizing place absent with
  | zero => exact .cons hplace .nil .noNode absent
  | succ levels ih => exact Json.arePlain_objectChecks ih Slot.isPlainKey_ofNode hplace absent

/-- Nodes are at plain places if the root is at one. -/
theorem Node.IsAt.isPlain {K : Type} {path place : Path} {n m : Node K} (h : IsAt path n place m)
    (hpath : path.IsPlain) : place.IsPlain := by
  induction h with
  | here path n => exact hpath
  | item _ _ ih => exact ih ⟨hpath, by decide⟩
  | child _ ih => exact ih ⟨hpath, by decide⟩

/-- The place that an error names. -/
def RecipeError.path? {K : Type} : RecipeError K → Option Path
  | .validation e => some e.path
  | .complexity (.tooManySegments path _ _) => some path
  | .complexity _ => none
  | .compile e => some e.path

namespace Recipe

theorem isPlain_root : Path.root.IsPlain := by decide

theorem isPlain_of_mem_places {v : Json} {p : Path} (h : p ∈ places v) : p.IsPlain := by
  obtain ⟨c, hc, rfl⟩ := List.mem_map.mp h
  have hdocument : Path.document.IsPlain := trivial
  exact Json.arePlain_objectChecks (Node.arePlain_checks v maxLevels)
    (fun _ => Slot.isPlainKey_ofDocument) hdocument none c hc

/-- What is wrong with a document is wrong at one of the places that are checked. -/
theorem mem_places_of_ofJson {v : Json} {e : ValidationError} (h : ofJson v = .error e) :
    e.path ∈ places v := by
  have hfollows : (checks v).findSome? (Check.error? v) = some e := by
    rw [follows_ofJson v, h]
    rfl
  obtain ⟨c, hc, hcheck⟩ := List.exists_of_findSome?_eq_some hfollows
  rw [Check.path_of_error? hcheck]
  exact List.mem_map_of_mem hc

theorem isPlain_of_mem_preorder {K : Type} {r : Recipe K} {e : Node K × Path}
    (h : e ∈ r.root.preorder .root) : e.2.IsPlain :=
  (Node.isAt_of_mem_preorder .root r.root h).isPlain isPlain_root

/-- A text that cannot be read is reported as a whole. -/
theorem isPlain_of_ofText {text : String} {e : ValidationError} (h : ofText text = .error e) :
    e.path.IsPlain := by
  unfold ofText at h
  dsimp only at h
  split at h
  · cases h
    exact trivial
  · split at h
    · exact isPlain_of_mem_places (mem_places_of_ofJson h)
    · cases h
      exact trivial

variable {m : Type → Type} [Monad m] [LawfulMonad m] {G : Type}

/-- Whatever the modeller does, only plain places are reported. -/
theorem isPlain_of_compileJson (k : Kernel m Double G) (options : CompileOptions) (v : Json) :
    SatisfiesM (fun out => ∀ e p, out = .error e → e.path? = some p → p.IsPlain)
      (compileJson k options v).run := by
  obtain ⟨hmirrors, hruns⟩ := run_compileJson_spec k options v
  rw [← hmirrors]
  refine hruns.map ?_
  rintro ⟨out, calls⟩ hrun e p rfl hp
  cases hr : ofJson v with
  | error e' =>
    rw [hr] at hrun
    obtain ⟨_⟩ := hrun
    cases hp
    exact isPlain_of_mem_places (mem_places_of_ofJson hr)
  | ok r =>
    rw [hr] at hrun
    cases e with
    | validation e => cases hrun
    | complexity e =>
      cases e with
      | tooManySegments path segments limit =>
        cases hp
        obtain ⟨n, hmem, -⟩ := exists_of_tooManySegments hrun
        exact isPlain_of_mem_preorder hmem
      | _ => cases hp
    | compile e =>
      cases hp
      obtain ⟨n, hrefused⟩ := refused_of_isRun hrun
      exact isPlain_of_mem_preorder hrefused.mem_preorder

/-- **The text of a place says which place it is.** Two places with plain keys have the same text
only if they are the same, whatever keys and positions they are made of. The places at which a
document is checked have plain keys, so no two of them have the same text, and neither do those of
the nodes of a recipe. What is wrong with a text or a value is reported at such a place, and so is
what a modeller refuses. -/
theorem text_identifies_place (k : Kernel m Double G) (options : CompileOptions) (v : Json) :
    (∀ p q : Path, p.IsPlain → q.IsPlain → (p.text = q.text ↔ p = q)) ∧
    (∀ p ∈ places v, p.IsPlain) ∧ ((places v).map Path.text).Nodup ∧
    (∀ r : Recipe Double, ((r.root.preorder .root).map fun e => e.2.text).Nodup) ∧
    (∀ text e, ofText text = .error e → e.path.IsPlain) ∧
    (∀ e, ofJson v = .error e → e.path ∈ places v) ∧
    SatisfiesM (fun out => ∀ e p, out = .error e → e.path? = some p → p.IsPlain)
      (compileJson k options v).run := by
  refine ⟨fun p q => Path.text_inj, fun p => isPlain_of_mem_places, ?places, ?nodes,
    fun text e => isPlain_of_ofText, fun e => mem_places_of_ofJson,
    isPlain_of_compileJson k options v⟩
  case places => exact Path.nodup_text (fun p => isPlain_of_mem_places) (nodup_places v)
  case nodes =>
    intro r
    have hperm := (Node.perm_preorder .root r.root).map Prod.snd
    have hplain : ∀ p ∈ (r.root.preorder .root).map Prod.snd, p.IsPlain := by
      rintro p hp
      obtain ⟨e, he, rfl⟩ := List.mem_map.mp hp
      exact isPlain_of_mem_preorder he
    have htexts := Path.nodup_text hplain (hperm.nodup_iff.mpr (Node.nodup_postorder .root r.root))
    rwa [List.map_map] at htexts

/-- The position after the key is one number or two, and `child` is the beginning of `children`.
With a dot in a key the texts of two places are the same. -/
theorem text_identifies_place_children : ∃ (p q p' q' : Path) (v : Json) (e : ValidationError),
    p = (Path.root.key "children").index 12 ∧ q = ((Path.root.key "children").index 1).index 2 ∧
    p' = Path.root.key "children" ∧ q' = (Path.root.key "child").key "ren" ∧
    (p.IsPlain ∧ q.IsPlain ∧ p'.IsPlain ∧ q'.IsPlain) ∧
    p.text = "$.root.children[12]" ∧ q.text = "$.root.children[1][2]" ∧
    p.text ≠ q.text ∧ p'.text ≠ q'.text ∧
    v = .object [("root", .null), ("version", .ofNat 2)] ∧
    e = ⟨.key .document "version", .unsupportedVersion (.ofNat 2)⟩ ∧ ofJson v = .error e ∧
    e.path ∈ places v ∧ (compileJson (Kernel.rehearsal none false) {} v).run 0 =
      (.error (.validation e), 0) ∧ e.path.IsPlain ∧
    (∃ unread, ofText "\x7b" = .error unread ∧ unread.path.IsPlain) ∧
    (Path.document.key "a.b").text = ((Path.document.key "a").key "b").text := by
  obtain ⟨hinj, -, -, -, hunread, hplace, hreport⟩ := text_identifies_place
    (Kernel.rehearsal none false : Kernel (StateM ℕ) Double ℕ) {}
    (.object [("root", .null), ("version", .ofNat 2)])
  have hrun := SatisfiesM_Id_eq.mp (SatisfiesM_StateT_eq.mp hreport 0)
  refine ⟨_, _, _, _, _, _, rfl, rfl, rfl, rfl, by decide, by decide, by decide, ?_, ?_, rfl, rfl,
    rfl, hplace _ rfl, rfl, hrun _ _ rfl rfl, ⟨_, rfl, hunread "\x7b" _ rfl⟩, by decide⟩
  · exact (hinj _ _ (by decide) (by decide)).not.mpr (by decide)
  · exact (hinj _ _ (by decide) (by decide)).not.mpr (by decide)

end Recipe

end Solids
