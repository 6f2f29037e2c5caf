import Solids.Proofs.OpenBrackets
/-!
# Solids.Proofs.Reading

**The reader reads the grammar.** Every text of the grammar that does not have too many brackets is
read, and as what it should be. As all that is read is in the grammar, this says what the reader
does.

Main definition:

* `Json.Completes` — the reader gets through the text of a value.

Main statements:

* `Json.Spells.completes` — it does so for all texts of the grammar;
* `Json.read_eq_ok_iff` — which texts are read, and as what.

A number does not tell where it ends. The reader is still inside it after its last character, and
the character after that is the first one to show that the number is complete: `State.ActsAs`.
-/

namespace Solids.Json

/-! ### Several characters -/

namespace State

variable {s r : State} {t u rest : List Char} {c : Char}

theorem after?_cons (h : s.step c = .next r) : s.after? (c :: t) = r.after? t := by
  rw [after?, h]

theorem after?_append (h : s.after? t = some r) : s.after? (t ++ u) = r.after? u := by
  induction t generalizing s with
  | nil =>
    cases h
    rfl
  | cons c t ih =>
    rw [after?] at h
    rw [List.cons_append, after?]
    split at h
    · exact ih h
    · cases h

theorem run_append (h : s.after? t = some r) : s.run (t ++ rest) = r.run rest := by
  induction t generalizing s with
  | nil =>
    cases h
    rfl
  | cons c t ih =>
    rw [after?] at h
    rw [List.cons_append, run]
    split at h
    · next hstep =>
      rw [hstep]
      exact ih h
    · cases h

/-- White space changes nothing here. -/
theorem after?_blank (h : ∀ c, isBlank c = true → s.step c = .next s) (ht : IsBlank t) :
    s.after? t = some s := by
  induction t with
  | nil => rfl
  | cons c t ih =>
    obtain ⟨hc, ht⟩ := List.forall_mem_cons.mp ht
    rw [after?_cons (h c hc), ih ht]

end State

section

variable {stack : List Frame} {c : Char}

theorem step_blank_value (place : ValuePlace) (h : isBlank c = true) :
    State.step ⟨.value place, stack⟩ c = .next ⟨.value place, stack⟩ := if_pos h

theorem step_blank_key (first : Bool) (h : isBlank c = true) :
    State.step ⟨.key first, stack⟩ c = .next ⟨.key first, stack⟩ := if_pos h

theorem step_blank_colon (h : isBlank c = true) :
    State.step ⟨.colon, stack⟩ c = .next ⟨.colon, stack⟩ := if_pos h

theorem step_blank_ended (h : isBlank c = true) :
    State.step ⟨.ended, stack⟩ c = .next ⟨.ended, stack⟩ := if_pos h

end

/-! ### Strings -/

section

variable {role : StringRole} {stack : List Frame} {chars : List Char}

/-- The digits of a code, and what becomes of it. -/
theorem after?_code {high : Option ℕ} {code start missing : ℕ} {w : List Char} {next : State}
    (hw : w.foldlM (fun code c => (hexDigit? c).map (code * 16 + ·)) start = some code)
    (hlength : w.length = missing) (hpos : 0 < missing)
    (hnext : endCode role chars high code 1 stack = .next next) :
    State.after? ⟨.code role chars high missing (some start), stack⟩ w = some next := by
  induction w generalizing start missing with
  | nil => exact absurd hlength hpos.ne
  | cons c w ih =>
    obtain ⟨value, hvalue, hw⟩ := Option.bind_eq_some_iff.mp hw
    obtain ⟨d, hd, rfl⟩ := Option.map_eq_some_iff.mp hvalue
    have hstep : State.step ⟨.code role chars high missing (some start), stack⟩ c =
        if 1 < missing then
          .next ⟨.code role chars high (missing - 1) (some (start * 16 + d)), stack⟩
        else endCode role chars high (start * 16 + d) missing stack := by
      simp only [State.step, hd, utf8Size_of_hexDigit? hd]
      rfl
    cases w with
    | nil =>
      cases hw
      obtain rfl : missing = 1 := hlength.symm
      exact State.after?_cons (hstep.trans hnext)
    | cons c' w =>
      have hlength' : (c' :: w).length = missing - 1 := Nat.eq_sub_of_add_eq hlength
      have hmore : 1 < missing := by
        rw [← hlength]
        simp
      rw [State.after?_cons (hstep.trans (if_pos hmore))]
      exact ih hw hlength' (Nat.sub_pos_of_lt hmore)

/-- A code with its backslash. -/
theorem after?_escapedCode {code : ℕ} {w : List Char} {next : State} (hw : IsCode w code)
    (hnext : endCode role chars none code 1 stack = .next next) :
    State.after? ⟨.string role chars, stack⟩ ('\\' :: 'u' :: w) = some next := by
  rw [State.after?_cons (r := ⟨.escape role chars, stack⟩) rfl,
    State.after?_cons (r := ⟨.code role chars none 4 (some 0), stack⟩) rfl]
  exact after?_code hw.2 hw.1 (by decide) hnext

/-- The code of a second half with its backslash. -/
theorem after?_secondCode {high code : ℕ} {w : List Char} {next : State} (hw : IsCode w code)
    (hnext : endCode role chars (some high) code 1 stack = .next next) :
    State.after? ⟨.pairBackslash role chars high, stack⟩ ('\\' :: 'u' :: w) = some next := by
  rw [State.after?_cons (r := ⟨.pairLetter role chars high, stack⟩) rfl,
    State.after?_cons (r := ⟨.code role chars (some high) 4 (some 0), stack⟩) rfl]
  exact after?_code hw.2 hw.1 (by decide) hnext

theorem not_isLow_of_isHigh {code : ℕ} (h : IsHigh code) : ¬ IsLow code :=
  fun hlow => absurd h.2 (by have := hlow.1; omega)

theorem SpellsChars.after? {t s : List Char} (h : SpellsChars t s) :
    State.after? ⟨.string role [], stack⟩ t = some ⟨.string role s.reverse, stack⟩ := by
  induction h with
  | nil => rfl
  | @plain t s c _ hquote hbackslash hcontrol ih =>
    have hstep : State.step ⟨.string role s.reverse, stack⟩ c =
        .next ⟨.string role (c :: s.reverse), stack⟩ := by
      simp [State.step, hquote, hbackslash, not_lt.mpr hcontrol]
    rw [State.after?_append ih, State.after?_cons hstep, List.reverse_concat]
    rfl
  | @escape t s c u _ hescape ih =>
    have hne : c ≠ 'u' := by
      rintro rfl
      cases hescape
    have hstep : State.step ⟨.escape role s.reverse, stack⟩ c =
        .next ⟨.string role (u :: s.reverse), stack⟩ := by
      simp [State.step, hne, hescape]
    rw [State.after?_append ih, State.after?_cons (r := ⟨.escape role s.reverse, stack⟩) rfl,
      State.after?_cons hstep, List.reverse_concat]
    rfl
  | @code t s u code _ hcode hhigh hlow ih =>
    have hend : endCode role s.reverse none code 1 stack =
        .next ⟨.string role (Char.ofNat code :: s.reverse), stack⟩ := by
      unfold IsHigh IsLow at *
      simp only [endCode]
      rw [if_neg (by simpa using hlow), if_neg hhigh]
    rw [State.after?_append ih, after?_escapedCode hcode hend, List.reverse_concat]
  | @pair t s u w high low _ hcode hhigh hcode' hlow ih =>
    have hfirst : endCode role s.reverse none high 1 stack =
        .next ⟨.pairBackslash role s.reverse high, stack⟩ := by
      have hnot := not_isLow_of_isHigh hhigh
      unfold IsHigh IsLow at *
      simp only [endCode]
      rw [if_neg (by simpa using hnot), if_pos hhigh]
    have hsecond : endCode role s.reverse (some high) low 1 stack =
        .next ⟨.string role (pairChar high low :: s.reverse), stack⟩ := by
      unfold IsLow at hlow
      simp only [endCode]
      rw [if_pos (by simpa using hlow)]
    rw [State.after?_append ih, ← List.cons_append, ← List.cons_append,
      State.after?_append (after?_escapedCode hcode hfirst), after?_secondCode hcode' hsecond,
      List.reverse_concat]

end

/-! ### Numbers -/

/-- A character that may come after a value in a container. -/
def IsDelimiter (c : Char) : Prop := isBlank c = true ∨ c = ',' ∨ c = ']' ∨ c = '\x7d'

theorem isDelimiter_of_isBlank {c : Char} (h : isBlank c = true) : IsDelimiter c := .inl h

/-- The two states are the same for what comes after a value. -/
def State.ActsAs (s s' : State) : Prop := ∀ c, IsDelimiter c → s.step c = s'.step c

theorem State.ActsAs.refl (s : State) : s.ActsAs s := fun _ _ => rfl

section

variable {stack : List Frame} {c : Char}

theorem begin?_isSome {start : NumberState} (h : NumberState.begin? c = some start) :
    c = '-' ∨ (digit? c).isSome = true := by
  unfold NumberState.begin? at h
  split_ifs at h with hminus
  · exact .inl hminus
  · obtain ⟨d, hd, -⟩ := Option.map_eq_some_iff.mp h
    exact .inr (by rw [hd]; rfl)

/-- The first character of a number begins it. -/
theorem step_begin? {start : NumberState} (h : NumberState.begin? c = some start)
    (place : ValuePlace) :
    State.step ⟨.value place, stack⟩ c = .next ⟨.number start, stack⟩ := by
  -- no other value, and nothing else, begins like a number
  have hne (other : Char) (hother : ¬ (other = '-' ∨ (digit? other).isSome = true)) :
      c ≠ other := by
    rintro rfl
    exact hother (begin?_isSome h)
  have hblank : ¬ isBlank c = true := by
    simp [isBlank, hne ' ' (by decide), hne '\n' (by decide), hne '\t' (by decide),
      hne '\r' (by decide)]
  simp [State.step, hblank, beginValue, h, hne ']' (by decide), hne '"' (by decide),
    hne '[' (by decide), hne '\x7b' (by decide), hne 'n' (by decide), hne 't' (by decide),
    hne 'f' (by decide)]

theorem NumberState.after?_number {t : List Char} {start state : NumberState}
    (h : start.after? t = some state) :
    State.after? ⟨.number start, stack⟩ t = some ⟨.number state, stack⟩ := by
  induction t generalizing start with
  | nil =>
    cases h
    rfl
  | cons c t ih =>
    rw [NumberState.after?] at h
    split at h
    · next next hnext =>
      have hstep : State.step ⟨.number start, stack⟩ c = .next ⟨.number next, stack⟩ := by
        simp only [State.step, hnext]
      rw [State.after?_cons hstep]
      exact ih h
    · cases h

/-- A number ends where a value may end. -/
theorem NumberState.step_delimiter {state : NumberState} {n : Number} (h : state.value? = some n)
    (hc : IsDelimiter c) : state.step c = .ends := by
  have hc' : c = ' ' ∨ c = '\n' ∨ c = '\t' ∨ c = '\r' ∨ c = ',' ∨ c = ']' ∨ c = '\x7d' := by
    simpa [IsDelimiter, isBlank, or_assoc] using hc
  have hdigit : digit? c = none := by
    rcases hc' with rfl | rfl | rfl | rfl | rfl | rfl | rfl <;> decide
  have hpoint : c ≠ '.' ∧ c ≠ 'e' ∧ c ≠ 'E' := by
    rcases hc' with rfl | rfl | rfl | rfl | rfl | rfl | rfl <;> decide
  cases state with
  | minus => cases h
  | point => cases h
  | letter => cases h
  | sign => cases h
  | _ => simp [NumberState.step, NumberState.pointOrEnd, NumberState.exponentOrEnd, hdigit, hpoint]

end

/-! ### Values -/

/-- The reader gets through the text of a value, wherever the value is needed. -/
inductive Completes (stack : List Frame) : List Char → Json → Prop where
  /-- The last character completes the value. -/
  | closing {t : List Char} {c : Char} {v : Json} {s : State} :
      (∀ place, State.after? ⟨.value place, stack⟩ t = some s) →
      s.step c = deliver v.asRead true stack → Completes stack (t ++ [c]) v
  /-- A number may go on. -/
  | number {t : List Char} {n : Number} {state : NumberState} :
      (∀ place, State.after? ⟨.value place, stack⟩ t = some ⟨.number state, stack⟩) →
      state.value? = some n → Completes stack t (.number n)

theorem IsWord.completes {t : List Char} {v : Json} (h : IsWord t v) (stack : List Frame) :
    Completes stack t v := by
  cases h with
  | null =>
    exact .closing (t := ['n', 'u', 'l']) (s := ⟨.word ['l'] .null, stack⟩) (fun _ => rfl) rfl
  | true =>
    exact .closing (t := ['t', 'r', 'u']) (s := ⟨.word ['e'] _, stack⟩) (fun _ => rfl) rfl
  | false =>
    exact .closing (t := ['f', 'a', 'l', 's']) (s := ⟨.word ['e'] _, stack⟩) (fun _ => rfl) rfl

theorem IsNumeral.completes {t : List Char} {n : Number} (h : IsNumeral t n)
    (stack : List Frame) : Completes stack t (.number n) := by
  obtain ⟨c, rest, start, state, rfl, hstart, hrest, hvalue⟩ := h
  refine .number (fun place => ?_) hvalue
  rw [State.after?_cons (step_begin? hstart place), NumberState.after?_number hrest]

theorem SpellsChars.completes {t s : List Char} (h : SpellsChars t s) (stack : List Frame) :
    Completes stack ('"' :: (t ++ ['"'])) (.string (String.ofList s)) := by
  refine .closing (t := '"' :: t) (s := ⟨.string .value s.reverse, stack⟩) (fun place => ?_) ?_
  · rw [State.after?_cons (r := ⟨.string .value [], stack⟩) rfl, h.after?]
  · simp [State.step, endString, asRead]

section

variable {stack : List Frame} {t u k : List Char} {v : Json}

/-- After the text of a value in a container the reader is after a value. -/
theorem Completes.exists_actsAs {stack' : List Frame} (h : Completes stack t v)
    (hnext : ∀ taken, deliver v.asRead taken stack = .next ⟨.ended, stack'⟩) (place : ValuePlace) :
    ∃ s, State.after? ⟨.value place, stack⟩ t = some s ∧ s.ActsAs ⟨.ended, stack'⟩ := by
  cases h with
  | closing ht hc =>
    refine ⟨⟨.ended, stack'⟩, ?_, .refl _⟩
    rw [State.after?_append (ht place), State.after?_cons (hc.trans (hnext true))]
    rfl
  | @number _ n state ht hvalue =>
    refine ⟨_, ht place, fun c hc => ?_⟩
    have hdeliver : deliver (.number n) false stack = .next ⟨.ended, stack'⟩ := hnext false
    simp only [State.step, NumberState.step_delimiter hvalue hc, hvalue, afterNumber, hdeliver]

/-- White space after a value. -/
theorem State.ActsAs.exists_after? {s : State} (h : s.ActsAs ⟨.ended, stack⟩) (ht : IsBlank t) :
    ∃ s', s.after? t = some s' ∧ s'.ActsAs ⟨.ended, stack⟩ := by
  cases t with
  | nil => exact ⟨s, rfl, h⟩
  | cons c t =>
    obtain ⟨hc, ht⟩ := List.forall_mem_cons.mp ht
    have hstep := (h c (isDelimiter_of_isBlank hc)).trans (step_blank_ended hc)
    refine ⟨⟨.ended, stack⟩, ?_, .refl _⟩
    rw [State.after?_cons hstep, State.after?_blank (fun _ => step_blank_ended) ht]

/-- A key with its colon. -/
theorem SpellsKey.after? {key key' : String} {fields : List (String × Json)}
    (h : SpellsKey k key) (first : Bool) :
    State.after? ⟨.key first, .object fields key' :: stack⟩ k =
      some ⟨.value .field, .object fields key :: stack⟩ := by
  cases h with
  | @mk before u between after s hbefore hs hbetween hafter =>
    have hopen : State.step ⟨.key first, .object fields key' :: stack⟩ '"' =
        .next ⟨.string .key [], .object fields key' :: stack⟩ := rfl
    have hclose : State.step ⟨.string .key s.reverse, .object fields key' :: stack⟩ '"' =
        .next ⟨.colon, .object fields (String.ofList s) :: stack⟩ := by
      simp [State.step, endString]
    have hcolon : State.step ⟨.colon, .object fields (String.ofList s) :: stack⟩ ':' =
        .next ⟨.value .field, .object fields (String.ofList s) :: stack⟩ := rfl
    rw [State.after?_append (State.after?_blank (fun _ => step_blank_key first) hbefore),
      State.after?_cons hopen, State.after?_append hs.after?, State.after?_cons hclose,
      State.after?_append (State.after?_blank (fun _ => step_blank_colon) hbetween),
      State.after?_cons hcolon, State.after?_blank (fun _ => step_blank_value .field) hafter]

/-- What is true after the items of an array: they can end here, and go on if there are any. -/
structure AfterItems (stack : List Frame) (items : List Json) (s : State) : Prop where
  /-- The array may end. -/
  closes : s.step ']' = deliver (Json.array items).asRead true stack
  /-- A further item may come after the others. -/
  goesOn : items ≠ [] → s.ActsAs ⟨.ended, .array (itemsAsRead items).reverse :: stack⟩

/-- What is true after the fields of an object. -/
structure AfterFields (stack : List Frame) (fields : List (String × Json)) (s : State) : Prop where
  /-- The object may end. -/
  closes : s.step '\x7d' = deliver (Json.object fields).asRead true stack
  /-- A further field may come after the others. -/
  goesOn : fields ≠ [] →
    ∃ key, s.ActsAs ⟨.ended, .object (sorted (fieldsAsRead fields)) key :: stack⟩

theorem afterItems_of_actsAs {items : List Json} {s : State}
    (h : s.ActsAs ⟨.ended, .array (itemsAsRead items).reverse :: stack⟩) :
    AfterItems stack items s := by
  refine ⟨?_, fun _ => h⟩
  rw [h ']' (by simp [IsDelimiter])]
  simp [State.step, afterValue, isBlank, closeContainer, Frame.close, asRead]

theorem afterFields_of_actsAs {fields : List (String × Json)} {key : String} {s : State}
    (h : s.ActsAs ⟨.ended, .object (sorted (fieldsAsRead fields)) key :: stack⟩) :
    AfterFields stack fields s := by
  refine ⟨?_, fun _ => ⟨key, h⟩⟩
  rw [h '\x7d' (by simp [IsDelimiter])]
  simp [State.step, afterValue, isBlank, closeContainer, Frame.close, asRead]

end

mutual

/-- **The reader gets through every value that is not nested too deeply.** -/
theorem Spells.completes {t : List Char} {v : Json} : Spells t v → ∀ stack : List Frame,
    v.nesting + stack.length ≤ nestingLimit → Completes stack t v
  | .word hw, stack, _ => hw.completes stack
  | .number hn, stack, _ => hn.completes stack
  | .string hs, stack, _ => hs.completes stack
  | .array (t := u) hitems, stack, hle => by
    rw [nesting] at hle
    obtain ⟨s, hu, hs⟩ := hitems.completes stack (by omega)
    have hlt : stack.length < nestingLimit := by omega
    refine .closing (t := '[' :: u) (s := s) (fun place => ?_) hs.closes
    have hstep : State.step ⟨.value place, stack⟩ '[' =
        .next ⟨.value .firstItem, .array [] :: stack⟩ := if_pos hlt
    rw [State.after?_cons hstep, hu]
  | .object (t := u) hfields, stack, hle => by
    rw [nesting] at hle
    obtain ⟨s, hu, hs⟩ := hfields.completes stack (by omega)
    have hlt : stack.length < nestingLimit := by omega
    refine .closing (t := '\x7b' :: u) (s := s) (fun place => ?_) hs.closes
    have hstep : State.step ⟨.value place, stack⟩ '\x7b' =
        .next ⟨.key true, .object [] "" :: stack⟩ := if_pos hlt
    rw [State.after?_cons hstep, hu]

theorem SpellsItems.completes {t : List Char} {items : List Json} : SpellsItems t items →
    ∀ stack : List Frame, nestingOfItems items + stack.length + 1 ≤ nestingLimit →
    ∃ s, State.after? ⟨.value .firstItem, .array [] :: stack⟩ t = some s ∧ AfterItems stack items s
  | .empty ht, stack, _ =>
    ⟨_, State.after?_blank (fun _ => step_blank_value .firstItem) ht, rfl, nofun⟩
  | @SpellsItems.add _ _ _ _ items v hlead hbefore hv hafter, stack, hle => by
    rw [nestingOfItems_concat] at hle
    obtain ⟨place, hlead⟩ := hlead.completes stack (by omega)
    have hvalue := hv.completes (.array (itemsAsRead items).reverse :: stack)
      (by rw [List.length_cons]; omega)
    obtain ⟨s, hu, hs⟩ := hvalue.exists_actsAs (fun _ => rfl) place
    obtain ⟨s', hs', hends⟩ := hs.exists_after? hafter
    rw [← List.reverse_concat, ← itemsAsRead_concat] at hends
    refine ⟨s', ?_, afterItems_of_actsAs hends⟩
    rw [State.after?_append hlead,
      State.after?_append (State.after?_blank (fun _ => step_blank_value place) hbefore),
      State.after?_append hu, hs']

theorem LeadsItem.completes {t : List Char} {items : List Json} : LeadsItem t items →
    ∀ stack : List Frame, nestingOfItems items + stack.length + 1 ≤ nestingLimit →
    ∃ place, State.after? ⟨.value .firstItem, .array [] :: stack⟩ t =
      some ⟨.value place, .array (itemsAsRead items).reverse :: stack⟩
  | .first, _, _ => ⟨.firstItem, rfl⟩
  | .next hitems hne, stack, hle => by
    obtain ⟨s, ht, hs⟩ := hitems.completes stack hle
    have hcomma := hs.goesOn hne ',' (.inr (.inl rfl))
    exact ⟨.nextItem, by rw [State.after?_append ht, State.after?_cons hcomma]; rfl⟩

theorem SpellsFields.completes {t : List Char} {fields : List (String × Json)} :
    SpellsFields t fields → ∀ stack : List Frame,
    nestingOfFields fields + stack.length + 1 ≤ nestingLimit →
    ∃ s, State.after? ⟨.key true, .object [] "" :: stack⟩ t = some s ∧ AfterFields stack fields s
  | .empty ht, stack, _ => ⟨_, State.after?_blank (fun _ => step_blank_key true) ht, rfl, nofun⟩
  | @SpellsFields.add _ _ _ _ fields key v hlead hkey hv hafter, stack, hle => by
    rw [nestingOfFields_concat] at hle
    obtain ⟨first, key', hlead⟩ := hlead.completes stack (by omega)
    have hvalue := hv.completes (.object (sorted (fieldsAsRead fields)) key :: stack)
      (by rw [List.length_cons]; omega)
    obtain ⟨s, hu, hs⟩ := hvalue.exists_actsAs (fun _ => rfl) .field
    obtain ⟨s', hs', hends⟩ := hs.exists_after? hafter
    rw [← sorted_fieldsAsRead_concat] at hends
    refine ⟨s', ?_, afterFields_of_actsAs hends⟩
    rw [State.after?_append hlead, State.after?_append (hkey.after? first),
      State.after?_append hu, hs']

theorem LeadsField.completes {t : List Char} {fields : List (String × Json)} :
    LeadsField t fields → ∀ stack : List Frame,
    nestingOfFields fields + stack.length + 1 ≤ nestingLimit →
    ∃ first key, State.after? ⟨.key true, .object [] "" :: stack⟩ t =
      some ⟨.key first, .object (sorted (fieldsAsRead fields)) key :: stack⟩
  | .first, _, _ => ⟨true, "", rfl⟩
  | .next hfields hne, stack, hle => by
    obtain ⟨s, ht, hs⟩ := hfields.completes stack hle
    obtain ⟨key, hends⟩ := hs.goesOn hne
    have hcomma := hends ',' (.inr (.inl rfl))
    exact ⟨false, key, by rw [State.after?_append ht, State.after?_cons hcomma]; rfl⟩

end

/-! ### Whole texts -/

theorem requireBlank_of_isBlank {t : List Char} (h : IsBlank t) : requireBlank t = .ok () := by
  induction t with
  | nil => rfl
  | cons c t ih =>
    obtain ⟨hc, ht⟩ := List.forall_mem_cons.mp h
    rw [requireBlank, if_pos hc, ih ht]

/-- A value at the top is the value of the text, and white space is left over. -/
theorem Completes.run {t rest : List Char} {v : Json} (h : Completes [] t v)
    (hrest : IsBlank rest) :
    ∃ rest', State.initial.run (t ++ rest) = .ok (v.asRead, rest') ∧ IsBlank rest' := by
  change ∃ rest', State.run ⟨.value .document, []⟩ _ = _ ∧ _
  cases h with
  | @closing t c v s ht hc =>
    refine ⟨rest, ?_, hrest⟩
    rw [List.append_assoc, State.run_append (ht .document)]
    simp only [List.singleton_append, State.run, hc]
    rfl
  | @number _ n state ht hvalue =>
    refine ⟨rest, ?_, hrest⟩
    rw [State.run_append (ht .document)]
    cases rest with
    | nil =>
      have hcomplete : state.isComplete = true := by
        cases state <;> first | rfl | cases hvalue
      simp [State.run, State.finish, hcomplete, hvalue, asRead]
    | cons c rest =>
      have hends := NumberState.step_delimiter hvalue
        (isDelimiter_of_isBlank (List.forall_mem_cons.mp hrest).1)
      simp [State.run, State.step, hends, hvalue, afterNumber, deliver, asRead]

/-- Texts of the grammar are read. -/
theorem SpellsText.read_eq {t : List Char} {v : Json} (h : SpellsText t v)
    (hle : v.nesting ≤ nestingLimit) : read t = .ok v.asRead := by
  cases h with
  | @mk before u after v hbefore hv hafter =>
    obtain ⟨rest, hrun, hrest⟩ := (hv.completes [] hle).run hafter
    have hvalue : readValue (before ++ (u ++ after)) = .ok (v.asRead, rest) := by
      rw [readValue, ← hrun]
      exact State.run_append (State.after?_blank (fun _ => step_blank_value .document) hbefore)
    rw [read, hvalue]
    simp [bind, Except.bind, pure, Except.pure, requireBlank_of_isBlank hrest]

/-- **What the reader does.** It reads the texts of the grammar that are not nested too deeply, and
as what is written in them. -/
theorem read_eq_ok_iff (t : List Char) (v : Json) :
    read t = .ok v ↔ ∃ w, SpellsText t w ∧ w.asRead = v ∧ w.nesting ≤ nestingLimit := by
  constructor
  · intro h
    obtain ⟨w, hw, hread⟩ := exists_spellsText_of_read h
    exact ⟨w, hw, hread, bracketDepth_eq_nesting hw ▸ bracketDepth_le_of_read h⟩
  · rintro ⟨w, hw, rfl, hle⟩
    exact hw.read_eq hle

/-- A text of the grammar is read if it does not have too many brackets, and only then. -/
theorem SpellsText.eq_asRead {t : List Char} {v w : Json} (h : SpellsText t w)
    (hread : read t = .ok v) : v = w.asRead ∧ w.nesting ≤ nestingLimit := by
  have hle : w.nesting ≤ nestingLimit := bracketDepth_eq_nesting h ▸ bracketDepth_le_of_read hread
  rw [h.read_eq hle] at hread
  exact ⟨(Except.ok.inj hread).symm, hle⟩

end Solids.Json
