import Solids.Json.Printer
import Solids.Proofs.Unfinished
/-!
# Solids.Proofs.Printing

**What is printed is JSON.** The compact text of a value is one of the texts of this value in the
grammar. Strings may hold any characters, and integers below `2 ^ 64` are printed exactly. Other
numbers are in the text with the digits they are given, and it is left open what they are read as.

Main definitions:

* `Json.mapNumbers` — a value with other numbers;
* `Json.HasNumbers` — what holds of all numbers of a value.

Main statements:

* `Json.spellsChars_escape` — a string is read as what was printed;
* `Json.isNumeral_numberText_natural` — so is an integer that is not negative;
* `Json.spellsText_compact` — the text of a value is in the grammar if those of its numbers are.
-/

namespace Solids.Json

/-! ### Strings -/

/-- The code that a control character is printed with. -/
theorem hexCode?_control {n : ℕ} (h : n < 32) :
    hexCode? ['0', '0', hexDigit (n / 16), hexDigit (n % 16)] = some n := by
  revert n
  decide

/-- One character more. -/
theorem SpellsChars.append_escapeChar {t s : List Char} (h : SpellsChars t s) (c : Char) :
    SpellsChars (t ++ escapeChar c) (s ++ [c]) := by
  have letter {n : ℕ} {u : Char} (hn : c.toNat = n) (hu : u.toNat = n) : c = u :=
    Char.toNat_inj.mp (hn.trans hu.symm)
  unfold escapeChar
  split_ifs with hquote hbackslash h8 h9 h10 h12 h13 hcontrol
  · subst hquote
    exact h.escape rfl
  · subst hbackslash
    exact h.escape rfl
  · exact letter (u := '\x08') h8 rfl ▸ h.escape rfl
  · exact letter (u := '\t') h9 rfl ▸ h.escape rfl
  · exact letter (u := '\n') h10 rfl ▸ h.escape rfl
  · exact letter (u := '\x0c') h12 rfl ▸ h.escape rfl
  · exact letter (u := '\r') h13 rfl ▸ h.escape rfl
  · have hcode : IsCode ['0', '0', hexDigit (c.toNat / 16), hexDigit (c.toNat % 16)] c.toNat :=
      ⟨rfl, hexCode?_control hcontrol⟩
    have hc := h.code hcode (fun hhigh => by have := hhigh.1; omega)
      (fun hlow => by have := hlow.1; omega)
    rwa [Char.ofNat_toNat] at hc
  · exact h.plain hquote hbackslash (not_lt.mp hcontrol)

/-- **A string is read as what was printed.** -/
theorem spellsChars_escape (s : List Char) : SpellsChars (s.flatMap escapeChar) s := by
  induction s using List.reverseRecOn with
  | nil => exact .nil
  | append_singleton s c ih =>
    rw [List.flatMap_append, List.flatMap_singleton]
    exact ih.append_escapeChar c

theorem toList_quoted (s : String) :
    (quoted s).toList = '"' :: (s.toList.flatMap escapeChar ++ ['"']) := by
  simp [quoted]

theorem spells_quoted (s : String) : Spells (quoted s).toList (.string s) := by
  have h := Spells.string (spellsChars_escape s.toList)
  rwa [String.ofList_toList, ← toList_quoted] at h

theorem spellsKey_quoted (s : String) : SpellsKey ((quoted s).toList ++ [':']) s := by
  have h := SpellsKey.mk isBlank_nil (spellsChars_escape s.toList) isBlank_nil isBlank_nil
  rw [String.ofList_toList] at h
  simpa [toList_quoted] using h

/-! ### Integers -/

theorem digit?_digitChar {d : ℕ} (h : d < 10) : digit? (Nat.digitChar d) = some d := by
  revert d
  decide

/-- The digits of a positive integer that fits. -/
theorem exists_toDigits_eq {n : ℕ} (hpos : 0 < n) (hlt : n < 2 ^ 64) : ∃ c t d,
    Nat.toDigits 10 n = c :: t ∧ NumberState.begin? c = some (.whole false d) ∧
      (NumberState.whole false d).after? t = some (.whole false n) := by
  induction n using Nat.strong_induction_on with
  | _ n ih =>
    rcases Nat.lt_or_ge n 10 with hsmall | hlarge
    · have hbegin : NumberState.begin? (Nat.digitChar n) = some (.whole false n) := by
        interval_cases n <;> rfl
      exact ⟨_, [], n, Nat.toDigits_of_lt_base hsmall, hbegin, rfl⟩
    · obtain ⟨c, t, d, hdigits, hbegin, hafter⟩ := ih (n / 10) (by omega) (by omega) (by omega)
      have hstep : (NumberState.whole false (n / 10)).step (Nat.digitChar (n % 10)) =
          .next (.whole false n) := by
        have hpush : pushDigit? (n / 10) (n % 10) = some n := by
          rw [pushDigit?, Nat.div_add_mod' n 10]
          exact if_pos hlt
        simp only [NumberState.step, digit?_digitChar (Nat.mod_lt n (by decide)), hpush]
      refine ⟨c, t ++ [Nat.digitChar (n % 10)], d, ?_, hbegin, ?_⟩
      · rw [Nat.toDigits_of_base_le (by decide) hlarge, hdigits, List.cons_append]
      · exact NumberState.after?_concat hafter hstep

theorem isNumeral_toDigits {n : ℕ} (hlt : n < 2 ^ 64) :
    IsNumeral (Nat.toDigits 10 n) (.natural n.toUInt64) := by
  rcases Nat.eq_zero_or_pos n with rfl | hpos
  · exact ⟨'0', [], .zero false, .zero false, rfl, rfl, rfl, rfl⟩
  · obtain ⟨c, t, d, hdigits, hbegin, hafter⟩ := exists_toDigits_eq hpos hlt
    exact ⟨c, t, _, _, hdigits, hbegin, hafter, rfl⟩

/-- An integer that is not negative is printed exactly. -/
theorem isNumeral_numberText_natural (k : UInt64) :
    IsNumeral (numberText (.natural k)).toList (.natural k) := by
  have h := isNumeral_toDigits k.toNat_lt
  rw [Nat.toUInt64_eq, UInt64.ofNat_toNat] at h
  have htext : (numberText (.natural k)).toList = Nat.toDigits 10 k.toNat := String.toList_ofList
  rwa [htext]

/-! ### Values -/

mutual

/-- A value with other numbers. -/
def mapNumbers (f : Number → Number) : Json → Json
  | .number value => .number (f value)
  | .array items => .array (mapNumbersOfItems f items)
  | .object fields => .object (mapNumbersOfFields f fields)
  | .null => .null
  | .bool value => .bool value
  | .string value => .string value

/-- Items with other numbers. -/
def mapNumbersOfItems (f : Number → Number) : List Json → List Json
  | [] => []
  | item :: rest => item.mapNumbers f :: mapNumbersOfItems f rest

/-- Fields with other numbers. -/
def mapNumbersOfFields (f : Number → Number) : List (String × Json) → List (String × Json)
  | [] => []
  | (key, value) :: rest => (key, value.mapNumbers f) :: mapNumbersOfFields f rest

end

mutual

/-- All numbers of a value have a property. -/
def HasNumbers (P : Number → Prop) : Json → Prop
  | .number value => P value
  | .array items => ItemsHaveNumbers P items
  | .object fields => FieldsHaveNumbers P fields
  | .null | .bool _ | .string _ => True

/-- All numbers of the items have a property. -/
def ItemsHaveNumbers (P : Number → Prop) : List Json → Prop
  | [] => True
  | item :: rest => item.HasNumbers P ∧ ItemsHaveNumbers P rest

/-- All numbers of the fields have a property. -/
def FieldsHaveNumbers (P : Number → Prop) : List (String × Json) → Prop
  | [] => True
  | (_, value) :: rest => value.HasNumbers P ∧ FieldsHaveNumbers P rest

end

/-- The texts of a field. -/
inductive SpellsField : List Char → String × Json → Prop where
  /-- The key and the value. -/
  | mk {k u : List Char} {key : String} {v : Json} : SpellsKey k key → SpellsText u v →
      SpellsField (k ++ u) (key, v)

section

variable {t u : List Char} {items : List Json} {fields : List (String × Json)}

theorem spellsText_of_spells {v : Json} (h : Spells t v) : SpellsText t v := by
  simpa using SpellsText.mk isBlank_nil h isBlank_nil

theorem LeadsItem.append {v : Json} (h : LeadsItem t items) (hv : SpellsText u v) :
    SpellsItems (t ++ u) (items ++ [v]) := by
  cases hv with
  | mk hbefore hv hafter => exact .add h hbefore hv hafter

theorem LeadsField.append {e : String × Json} (h : LeadsField t fields) (he : SpellsField u e) :
    SpellsFields (t ++ u) (fields ++ [e]) := by
  cases he with
  | mk hkey hv =>
    cases hv with
    | mk hbefore hv hafter =>
      cases hkey with
      | mk hbefore' hchars hbetween hafter' =>
        simpa using SpellsFields.add h (.mk hbefore' hchars hbetween (hafter'.append hbefore)) hv
          hafter

/-- Items with a comma between any two. -/
theorem LeadsItem.append_intercalate {texts : List (List Char)} {vs : List Json}
    (h : LeadsItem t items) (htexts : List.Forall₂ SpellsText texts vs) (hne : vs ≠ []) :
    SpellsItems (t ++ [','].intercalate texts) (items ++ vs) := by
  induction htexts generalizing t items with
  | nil => exact absurd rfl hne
  | @cons u v texts vs hu htexts ih =>
    have hadd := h.append hu
    cases htexts with
    | nil => simpa [List.intercalate] using hadd
    | cons hu' htexts' =>
      have hnext := ih (.next hadd (by simp)) (by simp)
      simpa [List.intercalate] using hnext

/-- Fields with a comma between any two. -/
theorem LeadsField.append_intercalate {texts : List (List Char)} {es : List (String × Json)}
    (h : LeadsField t fields) (htexts : List.Forall₂ SpellsField texts es) (hne : es ≠ []) :
    SpellsFields (t ++ [','].intercalate texts) (fields ++ es) := by
  induction htexts generalizing t fields with
  | nil => exact absurd rfl hne
  | @cons u e texts es hu htexts ih =>
    have hadd := h.append hu
    cases htexts with
    | nil => simpa [List.intercalate] using hadd
    | cons hu' htexts' =>
      have hnext := ih (.next hadd (by simp)) (by simp)
      simpa [List.intercalate] using hnext

theorem spellsItems_intercalate {texts : List (List Char)} {vs : List Json}
    (h : List.Forall₂ SpellsText texts vs) : SpellsItems ([','].intercalate texts) vs := by
  cases h with
  | nil => exact .empty isBlank_nil
  | cons hu htexts => exact LeadsItem.first.append_intercalate (.cons hu htexts) (by simp)

theorem spellsFields_intercalate {texts : List (List Char)} {es : List (String × Json)}
    (h : List.Forall₂ SpellsField texts es) : SpellsFields ([','].intercalate texts) es := by
  cases h with
  | nil => exact .empty isBlank_nil
  | cons hu htexts => exact LeadsField.first.append_intercalate (.cons hu htexts) (by simp)

end

variable {f : Number → Number}

mutual

/-- **The compact text of a value is in the grammar.** If the text of each of its numbers is read as
another number, then the text is one of the value with those numbers. -/
theorem spellsText_compact : (v : Json) →
    v.HasNumbers (fun n => SpellsText (numberText n).toList (.number (f n))) →
    SpellsText v.compact.toList (v.mapNumbers f)
  | .null, _ => spellsText_of_spells (.word .null)
  | .bool true, _ => spellsText_of_spells (.word .true)
  | .bool false, _ => spellsText_of_spells (.word .false)
  | .number _, h => h
  | .string s, _ => spellsText_of_spells (spells_quoted s)
  | .array items, h => by
    have hitems := spellsItems_intercalate (forall₂_compactItems items h)
    simpa [compact, mapNumbers] using spellsText_of_spells (.array hitems)
  | .object fields, h => by
    have hfields := spellsFields_intercalate (forall₂_compactFields fields h)
    simpa [compact, mapNumbers] using spellsText_of_spells (.object hfields)

theorem forall₂_compactItems : (items : List Json) →
    ItemsHaveNumbers (fun n => SpellsText (numberText n).toList (.number (f n))) items →
    List.Forall₂ SpellsText ((compactItems items).map String.toList) (mapNumbersOfItems f items)
  | [], _ => .nil
  | v :: rest, h => .cons (spellsText_compact v h.1) (forall₂_compactItems rest h.2)

theorem forall₂_compactFields : (fields : List (String × Json)) →
    FieldsHaveNumbers (fun n => SpellsText (numberText n).toList (.number (f n))) fields →
    List.Forall₂ SpellsField ((compactFields fields).map String.toList)
      (mapNumbersOfFields f fields)
  | [], _ => .nil
  | (key, v) :: rest, h => by
    refine .cons ?_ (forall₂_compactFields rest h.2)
    simpa using SpellsField.mk (spellsKey_quoted key) (spellsText_compact v h.1)

end

end Solids.Json
