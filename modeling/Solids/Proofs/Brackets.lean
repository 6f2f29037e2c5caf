import Solids.Json.Nesting
import Solids.Proofs.Spelling
/-!
# Solids.Proofs.Brackets

**The brackets of a text are those of what is written in it.** The pass over a text knows quotes,
backslashes and brackets, and nothing else of the grammar. It comes out of the text of a value as it
went in, and the most brackets that were open there is how deeply the value is nested.

Main definition:

* `Json.nesting` — how many containers of a value are inside each other.

Main statements:

* `Json.SpellsChars.scan`, `Json.Spells.scan` — the pass over the texts of the grammar;
* `Json.bracketDepth_eq_nesting` — the greatest depth of brackets in the text of a value.
-/

namespace Solids.Json

/-! ### Nesting of values -/

mutual

/-- How many containers are inside each other in a value, counting itself. -/
def nesting : Json → ℕ
  | .array items => nestingOfItems items + 1
  | .object fields => nestingOfFields fields + 1
  | .null | .bool _ | .number _ | .string _ => 0

/-- The greatest nesting of the items of an array. -/
def nestingOfItems : List Json → ℕ
  | [] => 0
  | item :: rest => max item.nesting (nestingOfItems rest)

/-- The greatest nesting of the values in an object. -/
def nestingOfFields : List (String × Json) → ℕ
  | [] => 0
  | (_, value) :: rest => max value.nesting (nestingOfFields rest)

end

theorem nestingOfItems_le_iff {items : List Json} {b : ℕ} :
    nestingOfItems items ≤ b ↔ ∀ v ∈ items, v.nesting ≤ b := by
  induction items with
  | nil => simp [nestingOfItems]
  | cons item rest ih => simp [nestingOfItems, ih]

theorem nestingOfFields_le_iff {fields : List (String × Json)} {b : ℕ} :
    nestingOfFields fields ≤ b ↔ ∀ e ∈ fields, e.2.nesting ≤ b := by
  induction fields with
  | nil => simp [nestingOfFields]
  | cons e rest ih =>
    rw [nestingOfFields, max_le_iff, ih, List.forall_mem_cons]

theorem nestingOfItems_concat (items : List Json) (v : Json) :
    nestingOfItems (items ++ [v]) = max (nestingOfItems items) v.nesting := by
  induction items with
  | nil => simp [nestingOfItems]
  | cons item rest ih => rw [List.cons_append, nestingOfItems, ih, nestingOfItems, max_assoc]

theorem nestingOfFields_concat (fields : List (String × Json)) (key : String) (v : Json) :
    nestingOfFields (fields ++ [(key, v)]) = max (nestingOfFields fields) v.nesting := by
  induction fields with
  | nil => simp [nestingOfFields]
  | cons e rest ih => rw [List.cons_append, nestingOfFields, ih, nestingOfFields, max_assoc]

/-! ### The pass over single characters -/

namespace Nesting

/-- The pass between two values, or inside a string. -/
def within (inString : Bool) (depth deepest : ℕ) : Nesting := ⟨depth, deepest, inString, false⟩

/-- A character that the pass takes no notice of. -/
def IsPlain (inString : Bool) (c : Char) : Prop :=
  ∀ depth deepest, step (within inString depth deepest) c = within inString depth deepest

variable {inString : Bool} {depth deepest : ℕ} {t : List Char}

theorem foldl_plain (h : ∀ c ∈ t, IsPlain inString c) :
    t.foldl step (within inString depth deepest) = within inString depth deepest := by
  induction t with
  | nil => rfl
  | cons c rest ih =>
    obtain ⟨hc, hrest⟩ := List.forall_mem_cons.mp h
    rw [List.foldl_cons, hc depth deepest, ih hrest]

theorem isPlain_of_outside {c : Char}
    (h : c ≠ '"' ∧ c ≠ '\x7b' ∧ c ≠ '[' ∧ c ≠ '\x7d' ∧ c ≠ ']') : IsPlain false c := by
  intro depth deepest
  simp [step, within, h]

theorem isPlain_of_inside {c : Char} (h : c ≠ '"' ∧ c ≠ '\\') : IsPlain true c := by
  intro depth deepest
  simp [step, within, h]

end Nesting

open Nesting

theorem isPlain_of_isBlank {c : Char} (h : isBlank c = true) : IsPlain false c := by
  refine isPlain_of_outside ?_
  simp only [isBlank, decide_eq_true_eq] at h
  rcases h with rfl | rfl | rfl | rfl <;> decide

theorem isPlain_of_digit? {c : Char} (h : (digit? c).isSome = true) : IsPlain false c := by
  refine isPlain_of_outside ⟨?_, ?_, ?_, ?_, ?_⟩ <;> rintro rfl <;> exact absurd h (by decide)

theorem isPlain_of_hexDigit? {c : Char} (h : (hexDigit? c).isSome = true) : IsPlain true c := by
  refine isPlain_of_inside ⟨?_, ?_⟩ <;> rintro rfl <;> exact absurd h (by decide)

/-! ### The pass over the grammar -/

theorem isPlain_of_isWord {t : List Char} {v : Json} (h : IsWord t v) :
    ∀ c ∈ t, IsPlain false c := by
  refine fun c hc => isPlain_of_outside ?_
  revert c
  cases h <;> simp

theorem IsWord.nesting_eq {t : List Char} {v : Json} (h : IsWord t v) : v.nesting = 0 := by
  cases h <;> rfl

/-- The first character of a number. -/
theorem isPlain_of_begin? {c : Char} {state : NumberState}
    (h : NumberState.begin? c = some state) : IsPlain false c := by
  unfold NumberState.begin? at h
  split at h
  · next hminus => exact isPlain_of_outside (by rw [hminus]; decide)
  · obtain ⟨d, hd, -⟩ := Option.map_eq_some_iff.mp h
    exact isPlain_of_digit? (by rw [hd]; rfl)

/-- A further character of a number. -/
theorem isPlain_of_step {c : Char} {state next : NumberState} (h : state.step c = .next next) :
    IsPlain false c := by
  cases hd : digit? c with
  | some d => exact isPlain_of_digit? (by rw [hd]; rfl)
  | none =>
    have hc : c = '.' ∨ c = 'e' ∨ c = 'E' ∨ c = '+' ∨ c = '-' := by
      cases state <;> simp only [NumberState.step, hd, NumberState.pointOrEnd,
        NumberState.exponentOrEnd, NumberState.powerDigit] at h <;> grind
    refine isPlain_of_outside ?_
    rcases hc with rfl | rfl | rfl | rfl | rfl <;> decide

theorem isPlain_of_after? {t : List Char} {state next : NumberState}
    (h : state.after? t = some next) : ∀ c ∈ t, IsPlain false c := by
  induction t generalizing state with
  | nil => nofun
  | cons c rest ih =>
    rw [NumberState.after?] at h
    split at h
    · next hstep => exact List.forall_mem_cons.mpr ⟨isPlain_of_step hstep, ih h⟩
    · cases h

theorem IsNumeral.isPlain {t : List Char} {n : Number} (h : IsNumeral t n) :
    ∀ c ∈ t, IsPlain false c := by
  obtain ⟨c, rest, start, state, rfl, hstart, hrest, -⟩ := h
  exact List.forall_mem_cons.mpr ⟨isPlain_of_begin? hstart, isPlain_of_after? hrest⟩

theorem isPlain_of_foldlM {t : List Char} {start code : ℕ}
    (h : t.foldlM (fun code c => (hexDigit? c).map (code * 16 + ·)) start = some code) :
    ∀ c ∈ t, IsPlain true c := by
  induction t generalizing start with
  | nil => nofun
  | cons c rest ih =>
    obtain ⟨next, hnext, hrest⟩ := Option.bind_eq_some_iff.mp h
    obtain ⟨d, hd, -⟩ := Option.map_eq_some_iff.mp hnext
    exact List.forall_mem_cons.mpr ⟨isPlain_of_hexDigit? (by rw [hd]; rfl), ih hrest⟩

variable {depth deepest : ℕ}

/-- A backslash and the character after it, whatever that is. -/
theorem foldl_escape (c : Char) : ['\\', c].foldl step (within true depth deepest) =
    within true depth deepest := rfl

/-- The pass over a code. -/
theorem foldl_code {t : List Char} {code : ℕ} (h : hexCode? t = some code) :
    ('\\' :: 'u' :: t).foldl step (within true depth deepest) = within true depth deepest := by
  change t.foldl step (['\\', 'u'].foldl step (within true depth deepest)) = _
  rw [foldl_escape, foldl_plain (isPlain_of_foldlM h)]

/-- The pass stays inside a string. -/
theorem SpellsChars.scan {t s : List Char} (h : SpellsChars t s) :
    t.foldl step (within true depth deepest) = within true depth deepest := by
  induction h with
  | nil => rfl
  | plain _ hquote hbackslash _ ih =>
    rw [List.foldl_append, ih]
    exact isPlain_of_inside ⟨hquote, hbackslash⟩ depth deepest
  | escape _ _ ih => rw [List.foldl_append, ih, foldl_escape]
  | code _ hcode _ _ ih => rw [List.foldl_append, ih, foldl_code hcode.2]
  | @pair _ _ u w _ _ _ hhigh _ hlow _ ih =>
    rw [List.foldl_append, ih, show '\\' :: 'u' :: (u ++ '\\' :: 'u' :: w) =
      ('\\' :: 'u' :: u) ++ '\\' :: 'u' :: w from rfl, List.foldl_append, foldl_code hhigh.2,
      foldl_code hlow.2]

/-- The pass over a string with its quotes. -/
theorem SpellsChars.scan_quoted {t s rest : List Char} (h : SpellsChars t s) :
    ('"' :: (t ++ '"' :: rest)).foldl step (within false depth deepest) =
      rest.foldl step (within false depth deepest) := by
  rw [List.foldl_cons, show step (within false depth deepest) '"' = within true depth deepest
    from rfl, List.foldl_append, h.scan]
  rfl

theorem IsBlank.scan {t : List Char} (h : IsBlank t) :
    t.foldl step (within false depth deepest) = within false depth deepest :=
  foldl_plain fun c hc => isPlain_of_isBlank (h c hc)

theorem SpellsKey.scan {t : List Char} {key : String} (h : SpellsKey t key) :
    t.foldl step (within false depth deepest) = within false depth deepest := by
  cases h with
  | mk hbefore hchars hbetween hafter =>
    rw [List.foldl_append, hbefore.scan, hchars.scan_quoted, List.foldl_append, hbetween.scan,
      List.foldl_cons, show step (within false depth deepest) ':' = within false depth deepest
      from rfl, hafter.scan]

/-- A container, if the pass over what is in it is known. -/
theorem foldl_container {opening closing : Char} {t : List Char} {inner : ℕ}
    (hopening : opening = '[' ∨ opening = '\x7b') (hclosing : closing = ']' ∨ closing = '\x7d')
    (h : ∀ depth deepest, depth ≤ deepest → t.foldl step (within false depth deepest) =
      within false depth (max deepest (depth + inner))) :
    (opening :: (t ++ [closing])).foldl step (within false depth deepest) =
      within false depth (max deepest (depth + (inner + 1))) := by
  have hin : step (within false depth deepest) opening =
      within false (depth + 1) (max deepest (depth + 1)) := by
    rcases hopening with rfl | rfl <;> rfl
  have hout (deepest : ℕ) :
      step (within false (depth + 1) deepest) closing = within false depth deepest := by
    rcases hclosing with rfl | rfl <;> rfl
  rw [List.foldl_cons, hin, List.foldl_append, h _ _ (le_max_right _ _), List.foldl_cons, hout,
    List.foldl_nil]
  congr 1
  omega

mutual

/-- The pass over the text of a value. -/
theorem Spells.scan {t : List Char} {v : Json} : Spells t v → ∀ depth deepest, depth ≤ deepest →
    t.foldl step (within false depth deepest) =
      within false depth (max deepest (depth + v.nesting))
  | .word hw, _, _, hle => by
    rw [hw.nesting_eq, Nat.add_zero, max_eq_left hle, foldl_plain (isPlain_of_isWord hw)]
  | .number hn, _, _, hle => by
    rw [nesting, Nat.add_zero, max_eq_left hle, foldl_plain hn.isPlain]
  | .string hs, _, _, hle => by
    rw [nesting, Nat.add_zero, max_eq_left hle, hs.scan_quoted]
    rfl
  | .array hitems, _, _, _ => foldl_container (.inl rfl) (.inl rfl) hitems.scan
  | .object hfields, _, _, _ => foldl_container (.inr rfl) (.inr rfl) hfields.scan

theorem SpellsItems.scan {t : List Char} {items : List Json} : SpellsItems t items →
    ∀ depth deepest, depth ≤ deepest → t.foldl step (within false depth deepest) =
      within false depth (max deepest (depth + nestingOfItems items))
  | .empty ht, _, _, hle => by
    rw [nestingOfItems, Nat.add_zero, max_eq_left hle, ht.scan]
  | .add hlead hbefore hv hafter, depth, deepest, hle => by
    rw [List.foldl_append, hlead.scan _ _ hle, List.foldl_append, hbefore.scan, List.foldl_append,
      hv.scan _ _ (hle.trans (le_max_left _ _)), hafter.scan, nestingOfItems_concat]
    congr 1
    omega

theorem LeadsItem.scan {t : List Char} {items : List Json} : LeadsItem t items →
    ∀ depth deepest, depth ≤ deepest → t.foldl step (within false depth deepest) =
      within false depth (max deepest (depth + nestingOfItems items))
  | .first, _, _, hle => by
    rw [nestingOfItems, Nat.add_zero, max_eq_left hle]
    rfl
  | .next hitems _, _, _, hle => by
    rw [List.foldl_append, hitems.scan _ _ hle]
    rfl

theorem SpellsFields.scan {t : List Char} {fields : List (String × Json)} : SpellsFields t fields →
    ∀ depth deepest, depth ≤ deepest → t.foldl step (within false depth deepest) =
      within false depth (max deepest (depth + nestingOfFields fields))
  | .empty ht, _, _, hle => by
    rw [nestingOfFields, Nat.add_zero, max_eq_left hle, ht.scan]
  | .add hlead hkey hv hafter, depth, deepest, hle => by
    rw [List.foldl_append, hlead.scan _ _ hle, List.foldl_append, hkey.scan, List.foldl_append,
      hv.scan _ _ (hle.trans (le_max_left _ _)), hafter.scan, nestingOfFields_concat]
    congr 1
    omega

theorem LeadsField.scan {t : List Char} {fields : List (String × Json)} : LeadsField t fields →
    ∀ depth deepest, depth ≤ deepest → t.foldl step (within false depth deepest) =
      within false depth (max deepest (depth + nestingOfFields fields))
  | .first, _, _, hle => by
    rw [nestingOfFields, Nat.add_zero, max_eq_left hle]
    rfl
  | .next hfields _, _, _, hle => by
    rw [List.foldl_append, hfields.scan _ _ hle]
    rfl

end

theorem SpellsText.scan {t : List Char} {v : Json} (h : SpellsText t v) :
    Nesting.ofText t = within false 0 v.nesting := by
  cases h with
  | mk hbefore hv hafter =>
    change List.foldl step (within false 0 0) _ = _
    rw [List.foldl_append, hbefore.scan, List.foldl_append, hv.scan _ _ le_rfl, hafter.scan,
      Nat.zero_add, Nat.zero_max]

/-- **The brackets of a text are nested as deeply as what is written in it.** -/
theorem bracketDepth_eq_nesting {t : List Char} {v : Json} (h : SpellsText t v) :
    bracketDepth t = v.nesting := by
  rw [bracketDepth, h.scan]
  rfl

end Solids.Json
