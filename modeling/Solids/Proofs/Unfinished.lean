import Solids.Proofs.Grammar
import Solids.Proofs.Spelling
/-!
# Solids.Proofs.Unfinished

**What the reader has taken so far.** As long as the reader does not refuse a text, what it has
taken is the beginning of a text of the grammar, and its state says which one.

Main definitions:

* `Json.Entered`, `Json.Ended` — texts up to where a value may begin, and up to after one;
* `Json.Unfinished` — the texts that lead to a state of the reader.

Main statements:

* `Json.Unfinished.step` — a further character is one of the grammar, or a fault;
* `Json.exists_spellsText_of_read` — what is read is a text of the grammar.

The four characters of a code are read as one. If there is no digit among them then this is told
after the last one. Until then the reader goes on, but what it has taken is not the beginning of any
text: `Mode.isRefused`.
-/

namespace Solids.Json

/-! ### Texts that were taken -/

/-- A text up to where a value may begin, and the containers that are open there. -/
inductive Entered : List Char → ValuePlace → List Frame → Prop where
  /-- Nothing is open. -/
  | document {t : List Char} : IsBlank t → Entered t .document []
  /-- The first item of an array. -/
  | firstItem {t after : List Char} {place : ValuePlace} {stack : List Frame} :
      Entered t place stack → IsBlank after →
      Entered (t ++ '[' :: after) .firstItem (.array [] :: stack)
  /-- A further item. -/
  | nextItem {t u after : List Char} {place : ValuePlace} {stack : List Frame}
      {items : List Json} : Entered t place stack → SpellsItems u items → items ≠ [] →
      IsBlank after → Entered (t ++ '[' :: (u ++ ',' :: after)) .nextItem
        (.array (itemsAsRead items).reverse :: stack)
  /-- The value of a field. -/
  | field {t u k : List Char} {place : ValuePlace} {stack : List Frame}
      {fields : List (String × Json)} {key : String} : Entered t place stack →
      LeadsField u fields → SpellsKey k key → Entered (t ++ '\x7b' :: (u ++ k)) .field
        (.object (sorted (fieldsAsRead fields)) key :: stack)

/-- A text up to after a value in a container. -/
inductive Ended : List Char → List Frame → Prop where
  /-- It is an item of an array. -/
  | item {t u : List Char} {place : ValuePlace} {stack : List Frame} {items : List Json} :
      Entered t place stack → SpellsItems u items → items ≠ [] →
      Ended (t ++ '[' :: u) (.array (itemsAsRead items).reverse :: stack)
  /-- It is the value of a field. -/
  | field {t u : List Char} {place : ValuePlace} {stack : List Frame}
      {fields : List (String × Json)} {key : String} : Entered t place stack →
      SpellsFields u fields → fields ≠ [] →
      Ended (t ++ '\x7b' :: u) (.object (sorted (fieldsAsRead fields)) key :: stack)

/-- A text up to where a string begins. -/
inductive Opens : List Char → StringRole → List Frame → Prop where
  /-- The string is a value. -/
  | value {t : List Char} {place : ValuePlace} {stack : List Frame} : Entered t place stack →
      Opens t .value stack
  /-- The string is a key. Which one was there before it does not matter. -/
  | key {t u before : List Char} {place : ValuePlace} {stack : List Frame}
      {fields : List (String × Json)} {key : String} : Entered t place stack →
      LeadsField u fields → IsBlank before → Opens (t ++ '\x7b' :: (u ++ before)) .key
        (.object (sorted (fieldsAsRead fields)) key :: stack)

/-- The first half of a pair, if there is one. -/
inductive SpellsHalf : List Char → Option ℕ → Prop where
  /-- There is none. -/
  | none : SpellsHalf [] none
  /-- Its code. -/
  | high {u : List Char} {code : ℕ} : IsCode u code → IsHigh code →
      SpellsHalf ('\\' :: 'u' :: u) (some code)

/-- A text that the reader has taken, and the state it is in. -/
inductive Unfinished : List Char → State → Prop where
  /-- Before a value. -/
  | value {t : List Char} {place : ValuePlace} {stack : List Frame} : Entered t place stack →
      Unfinished t ⟨.value place, stack⟩
  /-- After a value. -/
  | ended {t : List Char} {stack : List Frame} : Ended t stack → Unfinished t ⟨.ended, stack⟩
  /-- Before the first key of an object. -/
  | firstKey {t before : List Char} {place : ValuePlace} {stack : List Frame} {key : String} :
      Entered t place stack → IsBlank before →
      Unfinished (t ++ '\x7b' :: before) ⟨.key true, .object [] key :: stack⟩
  /-- Before a further key. -/
  | nextKey {t u before : List Char} {place : ValuePlace} {stack : List Frame}
      {fields : List (String × Json)} {key : String} : Entered t place stack →
      SpellsFields u fields → fields ≠ [] → IsBlank before →
      Unfinished (t ++ '\x7b' :: (u ++ ',' :: before))
        ⟨.key false, .object (sorted (fieldsAsRead fields)) key :: stack⟩
  /-- After a key. -/
  | colon {t u s after : List Char} {stack : List Frame} {fields : List (String × Json)} :
      Opens t .key (.object fields (String.ofList s) :: stack) → SpellsChars u s →
      IsBlank after → Unfinished (t ++ '"' :: (u ++ '"' :: after))
        ⟨.colon, .object fields (String.ofList s) :: stack⟩
  /-- Inside a word. -/
  | word {t u rest : List Char} {place : ValuePlace} {stack : List Frame} {v : Json} :
      Entered t place stack → IsWord (u ++ rest) v → rest ≠ [] →
      Unfinished (t ++ u) ⟨.word rest v, stack⟩
  /-- Inside a number. -/
  | number {t u : List Char} {c : Char} {place : ValuePlace} {stack : List Frame}
      {start state : NumberState} : Entered t place stack → NumberState.begin? c = some start →
      start.after? u = some state → Unfinished (t ++ c :: u) ⟨.number state, stack⟩
  /-- Inside a string. -/
  | string {t u chars : List Char} {role : StringRole} {stack : List Frame} :
      Opens t role stack → SpellsChars u chars.reverse →
      Unfinished (t ++ '"' :: u) ⟨.string role chars, stack⟩
  /-- After a backslash. -/
  | escape {t u chars : List Char} {role : StringRole} {stack : List Frame} :
      Opens t role stack → SpellsChars u chars.reverse →
      Unfinished (t ++ '"' :: (u ++ ['\\'])) ⟨.escape role chars, stack⟩
  /-- Inside a code. -/
  | code {t u h w chars : List Char} {role : StringRole} {stack : List Frame}
      {high : Option ℕ} {missing code : ℕ} : Opens t role stack → SpellsChars u chars.reverse →
      SpellsHalf h high → hexCode? w = some code → w.length + missing = 4 → 0 < missing →
      Unfinished (t ++ '"' :: (u ++ (h ++ '\\' :: 'u' :: w)))
        ⟨.code role chars high missing (some code), stack⟩
  /-- After the first half of a pair. -/
  | pairBackslash {t u h chars : List Char} {role : StringRole} {stack : List Frame} {high : ℕ} :
      Opens t role stack → SpellsChars u chars.reverse → SpellsHalf h (some high) →
      Unfinished (t ++ '"' :: (u ++ h)) ⟨.pairBackslash role chars high, stack⟩
  /-- After the first half of a pair and a backslash. -/
  | pairLetter {t u h chars : List Char} {role : StringRole} {stack : List Frame} {high : ℕ} :
      Opens t role stack → SpellsChars u chars.reverse → SpellsHalf h (some high) →
      Unfinished (t ++ '"' :: (u ++ (h ++ ['\\']))) ⟨.pairLetter role chars high, stack⟩

/-- A code is refused, but not all of its characters have been taken yet. -/
def Mode.isRefused : Mode → Bool
  | .code _ _ _ _ none => true
  | _ => false

/-- The outcome is right for a character after a text. -/
def Outcome.Follows (t : List Char) (c : Char) : Outcome → Prop
  | .next s => s.mode.isRefused = false → Unfinished (t ++ [c]) s
  | .done v taken => ∃ w, SpellsText (if taken then t ++ [c] else t) w ∧ w.asRead = v
  | .fault _ _ => True

/-! ### White space -/

section

variable {t : List Char} {c : Char}

theorem isBlank_nil : IsBlank [] := nofun

theorem IsBlank.append {u : List Char} (ht : IsBlank t) (hu : IsBlank u) : IsBlank (t ++ u) :=
  List.forall_mem_append.mpr ⟨ht, hu⟩

theorem isBlank_singleton (h : isBlank c = true) : IsBlank [c] := List.forall_mem_singleton.mpr h

theorem SpellsItems.append_blank {u : List Char} {items : List Json} (h : SpellsItems t items)
    (hu : IsBlank u) : SpellsItems (t ++ u) items := by
  cases h with
  | empty ht => exact .empty (ht.append hu)
  | add hlead hbefore hv hafter =>
    simpa only [List.append_assoc] using SpellsItems.add hlead hbefore hv (hafter.append hu)

theorem SpellsFields.append_blank {u : List Char} {fields : List (String × Json)}
    (h : SpellsFields t fields) (hu : IsBlank u) : SpellsFields (t ++ u) fields := by
  cases h with
  | empty ht => exact .empty (ht.append hu)
  | add hlead hkey hv hafter =>
    simpa only [List.append_assoc] using SpellsFields.add hlead hkey hv (hafter.append hu)

theorem SpellsText.append_blank {u : List Char} {v : Json} (h : SpellsText t v)
    (hu : IsBlank u) : SpellsText (t ++ u) v := by
  cases h with
  | mk hbefore hv hafter =>
    simpa only [List.append_assoc] using SpellsText.mk hbefore hv (hafter.append hu)

theorem Entered.append_blank {u : List Char} {place : ValuePlace} {stack : List Frame}
    (h : Entered t place stack) (hu : IsBlank u) : Entered (t ++ u) place stack := by
  cases h with
  | document ht => exact .document (ht.append hu)
  | firstItem h hafter =>
    simpa only [List.append_assoc, List.cons_append] using h.firstItem (hafter.append hu)
  | nextItem h hitems hne hafter =>
    simpa only [List.append_assoc, List.cons_append] using
      h.nextItem hitems hne (hafter.append hu)
  | field h hlead hkey =>
    cases hkey with
    | mk hbefore hchars hbetween hafter =>
      simpa only [List.append_assoc, List.cons_append] using
        h.field hlead (.mk hbefore hchars hbetween (hafter.append hu))

theorem Ended.append_blank {u : List Char} {stack : List Frame} (h : Ended t stack)
    (hu : IsBlank u) : Ended (t ++ u) stack := by
  cases h with
  | item h hitems hne =>
    simpa only [List.append_assoc, List.cons_append] using
      Ended.item h (hitems.append_blank hu) hne
  | field h hfields hne =>
    simpa only [List.append_assoc, List.cons_append] using
      Ended.field h (hfields.append_blank hu) hne

end

/-! ### Values that end -/

section

variable {t u : List Char} {c : Char} {place : ValuePlace} {stack : List Frame} {v : Json}

theorem Unfinished.of_eq {t' : List Char} {s : State} (h : Unfinished t s) (ht : t = t') :
    Unfinished t' s := ht ▸ h

/-- A value is the whole text, or the last one in the innermost container. -/
theorem Entered.deliver (h : Entered t place stack) (hv : Spells u v) (taken : Bool) :
    (stack = [] ∧ SpellsText (t ++ u) v) ∨
      ∃ stack', deliver v.asRead taken stack = .next ⟨.ended, stack'⟩ ∧ Ended (t ++ u) stack' := by
  cases h with
  | document ht =>
    refine .inl ⟨rfl, ?_⟩
    simpa only [List.append_nil] using SpellsText.mk ht hv isBlank_nil
  | firstItem h hafter =>
    refine .inr ⟨_, rfl, ?_⟩
    have hitems := SpellsItems.add .first hafter hv isBlank_nil
    simpa [itemsAsRead] using Ended.item h hitems (by simp)
  | nextItem h hitems hne hafter =>
    refine .inr ⟨_, rfl, ?_⟩
    have hitems := SpellsItems.add (.next hitems hne) hafter hv isBlank_nil
    simpa [itemsAsRead_concat] using Ended.item h hitems (by simp)
  | field h hlead hkey =>
    refine .inr ⟨_, rfl, ?_⟩
    have hfields := SpellsFields.add hlead hkey hv isBlank_nil
    simpa [sorted_fieldsAsRead_concat] using Ended.field h hfields (by simp)

/-- The last character of a value. -/
theorem Entered.deliver_follows (h : Entered t place stack) (hv : Spells (u ++ [c]) v) :
    (Json.deliver v.asRead true stack).Follows (t ++ u) c := by
  rcases h.deliver hv true with ⟨rfl, htext⟩ | ⟨stack', hnext, hended⟩
  · exact ⟨v, by simpa using htext, rfl⟩
  · rw [hnext]
    intro _
    exact (Unfinished.ended hended).of_eq (List.append_assoc ..).symm

theorem Ended.afterValue_follows (h : Ended t stack) : (afterValue c stack).Follows t c := by
  unfold afterValue
  split
  · next hblank => exact fun _ => .ended (h.append_blank (isBlank_singleton hblank))
  · cases h with
    | @item t₀ u₀ _ _ items h hitems hne =>
      dsimp only
      split_ifs with hcomma hclose
      · subst hcomma
        exact fun _ => (Unfinished.value (h.nextItem hitems hne isBlank_nil)).of_eq (by simp)
      · subst hclose
        have hv : Spells ('[' :: u₀ ++ [']']) (.array items) := .array hitems
        simpa [closeContainer, Frame.close, asRead] using h.deliver_follows hv
      · trivial
    | @field t₀ u₀ _ _ fields key h hfields hne =>
      dsimp only
      split_ifs with hcomma hclose
      · subst hcomma
        exact fun _ => (Unfinished.nextKey h hfields hne isBlank_nil).of_eq (by simp)
      · subst hclose
        have hv : Spells ('\x7b' :: u₀ ++ ['\x7d']) (.object fields) := .object hfields
        simpa [closeContainer, Frame.close, asRead] using h.deliver_follows hv
      · trivial

/-- The character after a number. -/
theorem Entered.afterNumber_follows {n : Number} (h : Entered t place stack)
    (hn : IsNumeral u n) : (afterNumber n c stack).Follows (t ++ u) c := by
  unfold afterNumber
  rcases h.deliver (.number hn) false with ⟨rfl, htext⟩ | ⟨stack', hnext, hended⟩
  · exact ⟨.number n, htext, rfl⟩
  · rw [asRead] at hnext
    rw [hnext]
    exact hended.afterValue_follows

/-! ### Values that begin -/

theorem IsWord.asRead_eq (h : IsWord t v) : v.asRead = v := by
  cases h <;> rfl

theorem Entered.openArray_follows (h : Entered t place stack) :
    (openContainer (.value .firstItem) (.array []) stack).Follows t '[' := by
  unfold openContainer
  split
  · exact fun _ => .value (h.firstItem isBlank_nil)
  · trivial

theorem Entered.openObject_follows (h : Entered t place stack) :
    (openContainer (.key true) (.object [] "") stack).Follows t '\x7b' := by
  unfold openContainer
  split
  · exact fun _ => .firstKey h isBlank_nil
  · trivial

theorem Entered.beginValue_follows (h : Entered t place stack) :
    (beginValue c stack).Follows t c := by
  unfold beginValue
  split_ifs with hquote harray hobject hn ht hf
  · subst hquote
    exact fun _ => .string (.value h) .nil
  · subst harray
    exact h.openArray_follows
  · subst hobject
    exact h.openObject_follows
  · subst hn
    exact fun _ => .word h .null (by simp)
  · subst ht
    exact fun _ => .word h .true (by simp)
  · subst hf
    exact fun _ => .word h .false (by simp)
  · split
    · next hbegin => exact fun _ => .number h hbegin rfl
    · trivial

/-! ### Strings -/

section

variable {chars : List Char} {role : StringRole}

theorem Opens.endString_follows (h : Opens t role stack) (hchars : SpellsChars u chars.reverse) :
    (endString role chars stack).Follows (t ++ '"' :: u) '"' := by
  cases h with
  | value h =>
    have hv : Spells ('"' :: u ++ ['"']) (.string (String.ofList chars.reverse)) := .string hchars
    simpa [endString, asRead] using h.deliver_follows hv
  | key h hlead hbefore =>
    exact fun _ => (Unfinished.colon (.key h hlead hbefore) hchars isBlank_nil).of_eq (by simp)

/-- The last digit of a code. -/
theorem Opens.endCode_follows {half w : List Char} {high : Option ℕ} {code bytes : ℕ}
    (h : Opens t role stack) (hchars : SpellsChars u chars.reverse) (hhalf : SpellsHalf half high)
    (hcode : IsCode (w ++ [c]) code) : (endCode role chars high code bytes stack).Follows
      (t ++ '"' :: (u ++ (half ++ '\\' :: 'u' :: w))) c := by
  have hlow : (decide (0xDC00 ≤ code) && decide (code ≤ 0xDFFF)) = true ↔ IsLow code := by
    simp [IsLow]
  unfold endCode
  cases hhalf with
  | none =>
    dsimp only
    split_ifs with hislow hishigh
    · trivial
    · exact fun _ => (Unfinished.pairBackslash h hchars (.high hcode hishigh)).of_eq (by simp)
    · intro _
      have hchars' := hchars.code hcode hishigh (hlow.not.mp hislow)
      rw [← List.reverse_cons] at hchars'
      exact (Unfinished.string h hchars').of_eq (by simp)
  | high hhigh hishigh =>
    dsimp only
    split_ifs with hislow
    · intro _
      have hchars' := hchars.pair hhigh hishigh hcode (hlow.mp hislow)
      rw [← List.reverse_cons] at hchars'
      exact (Unfinished.string h hchars').of_eq (by simp)
    · trivial

end

end

/-! ### One character -/

theorem hexCode?_concat {w : List Char} {code d : ℕ} {c : Char} (hw : hexCode? w = some code)
    (hd : hexDigit? c = some d) : hexCode? (w ++ [c]) = some (code * 16 + d) := by
  unfold hexCode? at hw ⊢
  simp [List.foldlM_append, hw, hd]

theorem utf8Size_of_hexDigit? {c : Char} {d : ℕ} (h : hexDigit? c = some d) : c.utf8Size = 1 := by
  have hc : c ≤ 'f' := by
    unfold hexDigit? at h
    split_ifs at h with hdigit hlower hupper
    · exact le_trans hdigit.2 (show '9' ≤ 'f' by decide)
    · exact hlower.2
    · exact le_trans hupper.2 (show 'F' ≤ 'f' by decide)
  exact Char.utf8Size_eq_one_iff.mpr (UInt32.le_trans (Char.le_def.mp hc) (by decide))

theorem NumberState.after?_concat {u : List Char} {c : Char} {start state next : NumberState}
    (h : start.after? u = some state) (hstep : state.step c = .next next) :
    start.after? (u ++ [c]) = some next := by
  induction u generalizing start with
  | nil =>
    cases h
    simp [NumberState.after?, hstep]
  | cons d rest ih =>
    rw [NumberState.after?] at h
    rw [List.cons_append, NumberState.after?]
    split at h
    · exact ih h
    · cases h

namespace Unfinished

variable {t : List Char} {c : Char} {stack : List Frame}

theorem step_value {place : ValuePlace} (h : Entered t place stack) :
    (State.step ⟨.value place, stack⟩ c).Follows t c := by
  simp only [State.step]
  split_ifs with hblank hclose
  · exact fun _ => .value (h.append_blank (isBlank_singleton hblank))
  · cases h with
    | document => trivial
    | @firstItem t₀ after _ _ h hafter =>
      subst hclose
      have hv : Spells ('[' :: after ++ [']']) (.array []) := .array (.empty hafter)
      exact h.deliver_follows hv
    | nextItem => trivial
    | field => trivial
  · exact h.beginValue_follows

theorem step_firstKey {before : List Char} {place : ValuePlace} {key : String}
    (h : Entered t place stack) (hbefore : IsBlank before) :
    (State.step ⟨.key true, .object [] key :: stack⟩ c).Follows (t ++ '\x7b' :: before) c := by
  simp only [State.step]
  split_ifs with hblank hquote hclose
  · exact fun _ => (firstKey h (hbefore.append (isBlank_singleton hblank))).of_eq (by simp)
  · subst hquote
    exact fun _ => .string (.key h .first hbefore) .nil
  · subst hclose
    have hv : Spells ('\x7b' :: before ++ ['\x7d']) (.object []) := .object (.empty hbefore)
    exact h.deliver_follows hv
  · trivial

theorem step_nextKey {u before : List Char} {place : ValuePlace}
    {fields : List (String × Json)} {key : String} (h : Entered t place stack)
    (hfields : SpellsFields u fields) (hne : fields ≠ []) (hbefore : IsBlank before) :
    (State.step ⟨.key false, .object (sorted (fieldsAsRead fields)) key :: stack⟩ c).Follows
      (t ++ '\x7b' :: (u ++ ',' :: before)) c := by
  simp only [State.step, Bool.false_eq_true, if_false]
  split_ifs with hblank hquote hclose
  · intro _
    exact (nextKey h hfields hne (hbefore.append (isBlank_singleton hblank))).of_eq (by simp)
  · subst hquote
    have hopens : Opens _ .key (.object _ key :: stack) := .key h (.next hfields hne) hbefore
    exact fun _ => (string hopens .nil).of_eq (by simp)
  · trivial
  · trivial

theorem step_colon {u s after : List Char} {fields : List (String × Json)}
    (h : Opens t .key (.object fields (String.ofList s) :: stack)) (hs : SpellsChars u s)
    (hafter : IsBlank after) :
    (State.step ⟨.colon, .object fields (String.ofList s) :: stack⟩ c).Follows
      (t ++ '"' :: (u ++ '"' :: after)) c := by
  simp only [State.step]
  split_ifs with hblank hcolon
  · exact fun _ => (colon h hs (hafter.append (isBlank_singleton hblank))).of_eq (by simp)
  · subst hcolon
    generalize hkey : String.ofList s = name at h ⊢
    cases h with
    | key h hlead hbefore =>
      intro _
      have hname := SpellsKey.mk hbefore hs hafter isBlank_nil
      rw [hkey] at hname
      exact (value (h.field hlead hname)).of_eq (by simp)
  · trivial

theorem step_word {u rest : List Char} {place : ValuePlace} {v : Json}
    (h : Entered t place stack) (hv : IsWord (u ++ rest) v) (hne : rest ≠ []) :
    (State.step ⟨.word rest v, stack⟩ c).Follows (t ++ u) c := by
  obtain ⟨letter, rest, rfl⟩ := List.exists_cons_of_ne_nil hne
  simp only [State.step]
  split_ifs with hletter hlast
  · trivial
  · obtain rfl : rest = [] := by simpa using hlast
    obtain rfl : c = letter := not_not.mp hletter
    have hfollows := h.deliver_follows (.word hv)
    rwa [hv.asRead_eq] at hfollows
  · obtain rfl : c = letter := not_not.mp hletter
    intro _
    rw [List.append_cons] at hv
    exact (word h hv (by simpa using hlast)).of_eq (by simp)

theorem step_number {u : List Char} {first : Char} {place : ValuePlace}
    {start state : NumberState} (h : Entered t place stack)
    (hstart : NumberState.begin? first = some start) (hu : start.after? u = some state) :
    (State.step ⟨.number state, stack⟩ c).Follows (t ++ first :: u) c := by
  simp only [State.step]
  cases hstep : state.step c with
  | next next =>
    exact fun _ => (number h hstart (NumberState.after?_concat hu hstep)).of_eq (by simp)
  | invalid => trivial
  | tooLarge => trivial
  | ends =>
    cases hvalue : state.value? with
    | some n => exact h.afterNumber_follows ⟨first, u, start, state, rfl, hstart, hu, hvalue⟩
    | none => trivial

variable {role : StringRole} {u chars : List Char}

theorem step_string (h : Opens t role stack) (hchars : SpellsChars u chars.reverse) :
    (State.step ⟨.string role chars, stack⟩ c).Follows (t ++ '"' :: u) c := by
  simp only [State.step]
  split_ifs with hquote hbackslash hcontrol
  · subst hquote
    exact h.endString_follows hchars
  · subst hbackslash
    exact fun _ => (escape h hchars).of_eq (by simp)
  · trivial
  · intro _
    have hchars' := hchars.plain hquote hbackslash (not_lt.mp hcontrol)
    rw [← List.reverse_cons] at hchars'
    exact (string h hchars').of_eq (by simp)

theorem step_escape (h : Opens t role stack) (hchars : SpellsChars u chars.reverse) :
    (State.step ⟨.escape role chars, stack⟩ c).Follows (t ++ '"' :: (u ++ ['\\'])) c := by
  simp only [State.step]
  split_ifs with hu
  · subst hu
    exact fun _ => (code h hchars .none (w := []) rfl rfl (by decide)).of_eq (by simp)
  · cases hescape : unescape? c with
    | some x =>
      intro _
      have hchars' := hchars.escape hescape
      rw [← List.reverse_cons] at hchars'
      exact (string h hchars').of_eq (by simp)
    | none => trivial

theorem step_code {half w : List Char} {high : Option ℕ} {missing code : ℕ}
    (h : Opens t role stack) (hchars : SpellsChars u chars.reverse) (hhalf : SpellsHalf half high)
    (hw : hexCode? w = some code) (hlength : w.length + missing = 4) (hpos : 0 < missing) :
    (State.step ⟨.code role chars high missing (some code), stack⟩ c).Follows
      (t ++ '"' :: (u ++ (half ++ '\\' :: 'u' :: w))) c := by
  simp only [State.step]
  cases hd : hexDigit? c with
  | none =>
    -- the code is refused, now or when all four characters are there
    split_ifs
    · intro hrefused
      cases hrefused
    · trivial
  | some d =>
    have hcode := hexCode?_concat hw hd
    have hlast : (w ++ [c]).length = w.length + 1 := List.length_append
    rw [utf8Size_of_hexDigit? hd]
    change Outcome.Follows _ _ (if 1 < missing then .next _ else _)
    split_ifs with hmore
    · intro _
      exact (Unfinished.code h hchars hhalf hcode (by omega) (by omega)).of_eq (by simp)
    · exact h.endCode_follows hchars hhalf ⟨by omega, hcode⟩

theorem step_pairBackslash {half : List Char} {high : ℕ} (h : Opens t role stack)
    (hchars : SpellsChars u chars.reverse) (hhalf : SpellsHalf half (some high)) :
    (State.step ⟨.pairBackslash role chars high, stack⟩ c).Follows
      (t ++ '"' :: (u ++ half)) c := by
  simp only [State.step]
  split_ifs with hbackslash
  · subst hbackslash
    exact fun _ => (pairLetter h hchars hhalf).of_eq (by simp)
  · trivial

theorem step_pairLetter {half : List Char} {high : ℕ} (h : Opens t role stack)
    (hchars : SpellsChars u chars.reverse) (hhalf : SpellsHalf half (some high)) :
    (State.step ⟨.pairLetter role chars high, stack⟩ c).Follows
      (t ++ '"' :: (u ++ (half ++ ['\\']))) c := by
  simp only [State.step]
  split_ifs with hu
  · subst hu
    exact fun _ => (code h hchars hhalf (w := []) rfl rfl (by decide)).of_eq (by simp)
  · trivial

/-- **A further character is one of the grammar**, unless it is a fault. -/
theorem step {s : State} (h : Unfinished t s) : (s.step c).Follows t c := by
  cases h with
  | value h => exact step_value h
  | ended h => exact h.afterValue_follows
  | firstKey h hbefore => exact step_firstKey h hbefore
  | nextKey h hfields hne hbefore => exact step_nextKey h hfields hne hbefore
  | colon h hs hafter => exact step_colon h hs hafter
  | word h hv hne => exact step_word h hv hne
  | number h hstart hu => exact step_number h hstart hu
  | string h hchars => exact step_string h hchars
  | escape h hchars => exact step_escape h hchars
  | code h hchars hhalf hw hlength hpos => exact step_code h hchars hhalf hw hlength hpos
  | pairBackslash h hchars hhalf => exact step_pairBackslash h hchars hhalf
  | pairLetter h hchars hhalf => exact step_pairLetter h hchars hhalf

end Unfinished

/-! ### Whole texts -/

namespace State

variable {s : State} {c : Char} {t rest : List Char} {v : Json}

/-- The reader after a text, if it takes all of it. -/
def after? (s : State) : List Char → Option State
  | [] => some s
  | c :: rest =>
    match s.step c with
    | .next next => next.after? rest
    | _ => none

/-- A code that is refused stays so. -/
theorem step_of_isRefused (h : s.mode.isRefused = true) :
    (∃ next, s.step c = .next next ∧ next.mode.isRefused = true) ∨
      ∃ bytes, s.step c = .fault .invalidEscape bytes := by
  obtain ⟨mode, stack⟩ := s
  cases mode with
  | code role chars high missing code =>
    cases code with
    | none =>
      by_cases hmore : c.utf8Size < missing
      · exact .inl ⟨_, if_pos hmore, rfl⟩
      · exact .inr ⟨missing, if_neg hmore⟩
    | some code => cases h
  | _ => cases h

theorem run_of_isRefused (rest : List Char) (h : s.mode.isRefused = true) :
    ∃ fault, s.run rest = .error fault ∧ fault.kind ≠ .recursionLimit := by
  induction rest generalizing s with
  | nil =>
    obtain ⟨mode, stack⟩ := s
    cases mode with
    | code => exact ⟨_, rfl, by decide⟩
    | _ => cases h
  | cons c rest ih =>
    rw [run]
    rcases step_of_isRefused h with ⟨next, hnext, hrefused⟩ | ⟨bytes, hfault⟩
    · rw [hnext]
      exact ih hrefused
    · rw [hfault]
      exact ⟨_, rfl, nofun⟩

theorem run_nil_eq_ok (h : s.run [] = .ok (v, rest)) : s.finish = .ok v ∧ rest = [] := by
  rw [run] at h
  cases hfinish : s.finish with
  | error kind =>
    rw [hfinish] at h
    cases h
  | ok value =>
    rw [hfinish] at h
    cases h
    exact ⟨rfl, rfl⟩

/-- If a run ends in a value then the next character does not end it, or ends it and is taken, or
ends it and is left. -/
theorem run_cons_eq_ok (h : s.run (c :: t) = .ok (v, rest)) :
    (∃ next, s.step c = .next next ∧ next.mode.isRefused = false ∧ next.run t = .ok (v, rest)) ∨
      (s.step c = .done v true ∧ rest = t) ∨ s.step c = .done v false ∧ rest = c :: t := by
  rw [run] at h
  cases hout : s.step c with
  | fault kind bytes =>
    rw [hout] at h
    cases h
  | done value taken =>
    rw [hout] at h
    cases taken with
    | true =>
      cases h
      exact .inr (.inl ⟨rfl, rfl⟩)
    | false =>
      cases h
      exact .inr (.inr ⟨rfl, rfl⟩)
  | next next =>
    rw [hout] at h
    cases hrefused : next.mode.isRefused with
    | true =>
      obtain ⟨fault, hfault, -⟩ := run_of_isRefused t hrefused
      cases hfault.symm.trans h
    | false => exact .inl ⟨next, rfl, hrefused, h⟩

/-- Only a number is complete at the end of a text. -/
theorem finish_eq_ok (h : s.finish = .ok v) :
    ∃ state n, s = ⟨.number state, []⟩ ∧ state.value? = some n ∧ v = .number n := by
  obtain ⟨mode, stack⟩ := s
  unfold finish at h
  cases mode with
  | number state =>
    dsimp only at h
    split_ifs at h with hcomplete
    cases hvalue : state.value? with
    | none => simp [hvalue] at h
    | some n =>
      cases stack with
      | nil =>
        rw [hvalue] at h
        cases h
        exact ⟨state, n, rfl, hvalue, rfl⟩
      | cons frame stack => simp [hvalue] at h
  | value place => cases place <;> cases h
  | key first => cases first <;> cases h
  | _ => cases h

end State

namespace Unfinished

variable {s : State} {t rest rest' : List Char} {v : Json}

theorem finish (h : Unfinished t s) (hfinish : s.finish = .ok v) :
    ∃ w, SpellsText t w ∧ w.asRead = v := by
  obtain ⟨state, n, rfl, hvalue, rfl⟩ := State.finish_eq_ok hfinish
  cases h with
  | @number t₀ u c place _ start _ h hstart hu =>
    cases h with
    | document hbefore =>
      have hn : IsNumeral (c :: u) n := ⟨c, u, start, state, rfl, hstart, hu, hvalue⟩
      refine ⟨.number n, ?_, rfl⟩
      simpa using SpellsText.mk hbefore (.number hn) isBlank_nil

/-- What is read from here on is read as what is written. -/
theorem run (h : Unfinished t s) (hrun : s.run rest = .ok (v, rest')) :
    ∃ u w, rest = u ++ rest' ∧ SpellsText (t ++ u) w ∧ w.asRead = v := by
  induction rest generalizing t s with
  | nil =>
    obtain ⟨hfinish, rfl⟩ := State.run_nil_eq_ok hrun
    obtain ⟨w, hw, hread⟩ := h.finish hfinish
    exact ⟨[], w, rfl, by rwa [List.append_nil], hread⟩
  | cons c rest ih =>
    have hstep := h.step (c := c)
    rcases State.run_cons_eq_ok hrun with ⟨next, hout, hrefused, hrun⟩ | ⟨hout, rfl⟩ | ⟨hout, rfl⟩
    · rw [hout] at hstep
      obtain ⟨u, w, rfl, hw, hread⟩ := ih (hstep hrefused) hrun
      exact ⟨c :: u, w, rfl, by rwa [List.append_assoc] at hw, hread⟩
    · rw [hout] at hstep
      obtain ⟨w, hw, hread⟩ := hstep
      exact ⟨[c], w, rfl, hw, hread⟩
    · rw [hout] at hstep
      obtain ⟨w, hw, hread⟩ := hstep
      exact ⟨[], w, rfl, by rwa [List.append_nil], hread⟩

end Unfinished

theorem unfinished_initial : Unfinished [] State.initial := .value (.document isBlank_nil)

theorem isBlank_of_requireBlank {t : List Char} {u : Unit} (h : requireBlank t = .ok u) :
    IsBlank t := by
  induction t with
  | nil => exact isBlank_nil
  | cons c rest ih =>
    rw [requireBlank] at h
    split at h
    · next hblank => exact List.forall_mem_cons.mpr ⟨hblank, ih h⟩
    · cases h

/-- **What is read is a text of the grammar.** -/
theorem exists_spellsText_of_read {t : List Char} {v : Json} (h : read t = .ok v) :
    ∃ w, SpellsText t w ∧ w.asRead = v := by
  obtain ⟨⟨value, rest⟩, hvalue, hrest⟩ := bind_eq_ok_iff.mp h
  obtain ⟨_, hblank, hv⟩ := bind_eq_ok_iff.mp hrest
  cases hv
  obtain ⟨u, w, rfl, hw, hread⟩ := unfinished_initial.run hvalue
  exact ⟨w, hw.append_blank (isBlank_of_requireBlank hblank), hread⟩

end Solids.Json
