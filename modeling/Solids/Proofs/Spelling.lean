import Mathlib
import Solids.Json.Reader
/-!
# Solids.Proofs.Spelling

**The grammar of JSON texts**, as a relation between a text and what is written in it.

Main definitions:

* `Json.IsNumeral`, `Json.SpellsChars` — the texts of numbers, and those between two quotes;
* `Json.Spells` — the texts of a value;
* `Json.SpellsText` — the texts of a value, with white space around it;
* `Json.asRead` — what the texts of a value are read as.

Design points:

* What is written is a `Json` whose objects have their fields in the order of the text, each as
  often as it is there. What is read has them in the order of their keys, each key once.
* Lists of items and fields grow at their end, as they do when a text is read from left to right.
  What comes before a further item, nothing or a comma, is a notion of its own: `LeadsItem`.
* The numerals are those that `NumberState` goes through to the end of, and the number is the one
  that it makes of them. A numeral that is too large for that is no numeral here.
-/

namespace Solids.Json

/-! ### White space and numerals -/

/-- White space, or nothing. -/
def IsBlank (t : List Char) : Prop := ∀ c ∈ t, isBlank c = true

/-- A number with further characters, if it goes on with all of them. -/
def NumberState.after? (state : NumberState) : List Char → Option NumberState
  | [] => some state
  | c :: rest =>
    match state.step c with
    | .next state => state.after? rest
    | _ => none

/-- The texts of a number. -/
def IsNumeral (t : List Char) (n : Number) : Prop :=
  ∃ c rest start state, t = c :: rest ∧ NumberState.begin? c = some start ∧
    start.after? rest = some state ∧ state.value? = some n

/-! ### Strings -/

/-- The number that hexadecimal digits are. -/
def hexCode? (t : List Char) : Option ℕ :=
  t.foldlM (fun code c => (hexDigit? c).map (code * 16 + ·)) 0

/-- Four hexadecimal digits. -/
def IsCode (t : List Char) (code : ℕ) : Prop := t.length = 4 ∧ hexCode? t = some code

/-- The first half of a pair that stands for one character. -/
def IsHigh (code : ℕ) : Prop := 0xD800 ≤ code ∧ code ≤ 0xDBFF

/-- The second half of a pair. -/
def IsLow (code : ℕ) : Prop := 0xDC00 ≤ code ∧ code ≤ 0xDFFF

/-- The texts between the quotes of a string. -/
inductive SpellsChars : List Char → List Char → Prop where
  /-- The empty string. -/
  | nil : SpellsChars [] []
  /-- A character that stands for itself. -/
  | plain {t s : List Char} {c : Char} : SpellsChars t s → c ≠ '"' → c ≠ '\\' → 0x20 ≤ c.toNat →
      SpellsChars (t ++ [c]) (s ++ [c])
  /-- A backslash and a letter. -/
  | escape {t s : List Char} {c u : Char} : SpellsChars t s → unescape? c = some u →
      SpellsChars (t ++ ['\\', c]) (s ++ [u])
  /-- A code that is no half of a pair. -/
  | code {t s u : List Char} {code : ℕ} : SpellsChars t s → IsCode u code → ¬ IsHigh code →
      ¬ IsLow code → SpellsChars (t ++ '\\' :: 'u' :: u) (s ++ [Char.ofNat code])
  /-- Both halves of a pair. -/
  | pair {t s u w : List Char} {high low : ℕ} : SpellsChars t s → IsCode u high → IsHigh high →
      IsCode w low → IsLow low →
      SpellsChars (t ++ '\\' :: 'u' :: (u ++ '\\' :: 'u' :: w)) (s ++ [pairChar high low])

/-- The texts of the key of a field, up to where its value begins. -/
inductive SpellsKey : List Char → String → Prop where
  /-- A string and a colon. -/
  | mk {before u between after s : List Char} : IsBlank before → SpellsChars u s →
      IsBlank between → IsBlank after →
      SpellsKey (before ++ '"' :: (u ++ '"' :: (between ++ ':' :: after))) (String.ofList s)

/-! ### Values -/

/-- The values that are written as a word. -/
inductive IsWord : List Char → Json → Prop where
  /-- Nothing. -/
  | null : IsWord ['n', 'u', 'l', 'l'] .null
  /-- One of the truth values. -/
  | true : IsWord ['t', 'r', 'u', 'e'] (.bool true)
  /-- The other one. -/
  | false : IsWord ['f', 'a', 'l', 's', 'e'] (.bool false)

mutual

/-- The texts of a value. -/
inductive Spells : List Char → Json → Prop where
  /-- A word. -/
  | word {t : List Char} {v : Json} : IsWord t v → Spells t v
  /-- A number. -/
  | number {t : List Char} {n : Number} : IsNumeral t n → Spells t (.number n)
  /-- A text between quotes. -/
  | string {t s : List Char} : SpellsChars t s →
      Spells ('"' :: (t ++ ['"'])) (.string (String.ofList s))
  /-- Items between brackets. -/
  | array {t : List Char} {items : List Json} : SpellsItems t items →
      Spells ('[' :: (t ++ [']'])) (.array items)
  /-- Fields between braces. -/
  | object {t : List Char} {fields : List (String × Json)} : SpellsFields t fields →
      Spells ('\x7b' :: (t ++ ['\x7d'])) (.object fields)

/-- The texts between the brackets of an array. -/
inductive SpellsItems : List Char → List Json → Prop where
  /-- No items. -/
  | empty {t : List Char} : IsBlank t → SpellsItems t []
  /-- One item more. -/
  | add {t before u after : List Char} {items : List Json} {v : Json} : LeadsItem t items →
      IsBlank before → Spells u v → IsBlank after →
      SpellsItems (t ++ (before ++ (u ++ after))) (items ++ [v])

/-- What comes before a further item. -/
inductive LeadsItem : List Char → List Json → Prop where
  /-- Nothing does. -/
  | first : LeadsItem [] []
  /-- Other items and a comma do. -/
  | next {t : List Char} {items : List Json} : SpellsItems t items → items ≠ [] →
      LeadsItem (t ++ [',']) items

/-- The texts between the braces of an object. -/
inductive SpellsFields : List Char → List (String × Json) → Prop where
  /-- No fields. -/
  | empty {t : List Char} : IsBlank t → SpellsFields t []
  /-- One field more. -/
  | add {t k u after : List Char} {fields : List (String × Json)} {key : String} {v : Json} :
      LeadsField t fields → SpellsKey k key → Spells u v → IsBlank after →
      SpellsFields (t ++ (k ++ (u ++ after))) (fields ++ [(key, v)])

/-- What comes before a further field. -/
inductive LeadsField : List Char → List (String × Json) → Prop where
  /-- Nothing does. -/
  | first : LeadsField [] []
  /-- Other fields and a comma do. -/
  | next {t : List Char} {fields : List (String × Json)} : SpellsFields t fields → fields ≠ [] →
      LeadsField (t ++ [',']) fields

end

/-- The texts of a value, with white space around it. -/
inductive SpellsText : List Char → Json → Prop where
  /-- The value with what is before and after it. -/
  | mk {before t after : List Char} {v : Json} : IsBlank before → Spells t v → IsBlank after →
      SpellsText (before ++ (t ++ after)) v

/-! ### What is read -/

/-- Fields in the order of their keys. The last one with a key counts. -/
def sorted (fields : List (String × Json)) : List (String × Json) :=
  fields.foldl (fun fields e => insertField e.1 e.2 fields) []

mutual

/-- What the texts of a value are read as. -/
def asRead : Json → Json
  | .array items => .array (itemsAsRead items)
  | .object fields => .object (sorted (fieldsAsRead fields))
  | .null => .null
  | .bool value => .bool value
  | .number value => .number value
  | .string value => .string value

/-- The items of an array as they are read. -/
def itemsAsRead : List Json → List Json
  | [] => []
  | item :: rest => item.asRead :: itemsAsRead rest

/-- The fields of an object with the values that are read. -/
def fieldsAsRead : List (String × Json) → List (String × Json)
  | [] => []
  | (key, value) :: rest => (key, value.asRead) :: fieldsAsRead rest

end

theorem itemsAsRead_eq_map (items : List Json) : itemsAsRead items = items.map asRead := by
  induction items with
  | nil => rfl
  | cons item rest ih => rw [itemsAsRead, ih, List.map_cons]

theorem fieldsAsRead_eq_map (fields : List (String × Json)) :
    fieldsAsRead fields = fields.map fun e => (e.1, e.2.asRead) := by
  induction fields with
  | nil => rfl
  | cons e rest ih => rw [fieldsAsRead, ih, List.map_cons]

/-- A further item is read after the others. -/
theorem itemsAsRead_concat (items : List Json) (v : Json) :
    itemsAsRead (items ++ [v]) = itemsAsRead items ++ [v.asRead] := by
  simp [itemsAsRead_eq_map]

/-- A further field is put among the others. -/
theorem sorted_fieldsAsRead_concat (fields : List (String × Json)) (key : String) (v : Json) :
    sorted (fieldsAsRead (fields ++ [(key, v)])) =
      insertField key v.asRead (sorted (fieldsAsRead fields)) := by
  simp [sorted, fieldsAsRead_eq_map]

end Solids.Json
