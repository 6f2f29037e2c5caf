import Solids.Proofs.Brackets
import Solids.Proofs.Unfinished
/-!
# Solids.Proofs.OpenBrackets

**The open brackets of a text are the open containers of the reader.** The pass over the brackets
and the reader go through a text side by side. As long as the reader does not refuse it, the two
agree about how much is open, and the reader never has more open than its limit.

Main definition:

* `Json.Takes` — the reader has not refused a text so far, and so many containers are open.

Main statements:

* `Json.Takes.depth_ofText` — they are the open brackets;
* `Json.bracketDepth_le_of_read`, `Json.le_bracketDepth_of_read` — texts that are read do not have
  too many brackets, and texts that are refused for their brackets do.
-/

namespace Solids.Json

/-! ### Open containers -/

open Nesting

/-- The pass goes through this text and comes out as deep as it went in. -/
def KeepsDepth (u : List Char) : Prop := ∀ depth deepest, depth ≤ deepest → ∃ deepest',
  depth ≤ deepest' ∧ u.foldl step (within false depth deepest) = within false depth deepest'

/-- The pass over this text ends outside of strings, with so many open brackets. -/
def AtDepth (t : List Char) (depth : ℕ) : Prop :=
  ∃ deepest, depth ≤ deepest ∧ ofText t = within false depth deepest

section

variable {t u k : List Char} {items : List Json} {fields : List (String × Json)} {depth : ℕ}

theorem KeepsDepth.append (ht : KeepsDepth t) (hu : KeepsDepth u) : KeepsDepth (t ++ u) := by
  intro depth deepest hle
  obtain ⟨deepest₁, hle₁, ht⟩ := ht depth deepest hle
  obtain ⟨deepest₂, hle₂, hu⟩ := hu depth deepest₁ hle₁
  exact ⟨deepest₂, hle₂, by rw [List.foldl_append, ht, hu]⟩

theorem keepsDepth_of_isPlain (h : ∀ c ∈ t, IsPlain false c) : KeepsDepth t :=
  fun _ deepest hle => ⟨deepest, hle, foldl_plain h⟩

theorem IsBlank.keepsDepth (h : IsBlank t) : KeepsDepth t :=
  fun _ deepest hle => ⟨deepest, hle, h.scan⟩

theorem SpellsKey.keepsDepth {key : String} (h : SpellsKey t key) : KeepsDepth t :=
  fun _ deepest hle => ⟨deepest, hle, h.scan⟩

theorem SpellsItems.keepsDepth (h : SpellsItems t items) : KeepsDepth t :=
  fun depth _ hle => ⟨_, hle.trans (le_max_left _ _), h.scan depth _ hle⟩

theorem SpellsFields.keepsDepth (h : SpellsFields t fields) : KeepsDepth t :=
  fun depth _ hle => ⟨_, hle.trans (le_max_left _ _), h.scan depth _ hle⟩

theorem LeadsField.keepsDepth (h : LeadsField t fields) : KeepsDepth t :=
  fun depth _ hle => ⟨_, hle.trans (le_max_left _ _), h.scan depth _ hle⟩

/-- A comma, and white space after it. -/
theorem keepsDepth_comma (h : IsBlank t) : KeepsDepth (',' :: t) :=
  fun _ deepest hle => ⟨deepest, hle, h.scan⟩

theorem ofText_append (t u : List Char) : ofText (t ++ u) = u.foldl step (ofText t) :=
  List.foldl_append

theorem AtDepth.append (h : AtDepth t depth) (hu : KeepsDepth u) : AtDepth (t ++ u) depth := by
  obtain ⟨deepest, hle, ht⟩ := h
  obtain ⟨deepest', hle', hu⟩ := hu depth deepest hle
  exact ⟨deepest', hle', by rw [ofText_append, ht, hu]⟩

/-- A further bracket, and what is read of the container. -/
theorem AtDepth.open {opening : Char} (h : AtDepth t depth)
    (hopening : opening = '[' ∨ opening = '\x7b') (hu : KeepsDepth u) :
    AtDepth (t ++ opening :: u) (depth + 1) := by
  obtain ⟨deepest, hle, ht⟩ := h
  have hin : step (within false depth deepest) opening =
      within false (depth + 1) (max deepest (depth + 1)) := by
    rcases hopening with rfl | rfl <;> rfl
  have hopen : AtDepth (t ++ [opening]) (depth + 1) :=
    ⟨_, le_max_right _ _, by rw [ofText_append, ht, List.foldl_cons, hin, List.foldl_nil]⟩
  rw [List.append_cons]
  exact hopen.append hu

theorem AtDepth.depth_eq (h : AtDepth t depth) : (ofText t).depth = depth := by
  obtain ⟨deepest, -, ht⟩ := h
  rw [ht]
  rfl

end

section

variable {t : List Char} {place : ValuePlace} {role : StringRole} {stack : List Frame}
  {s : State}

/-- The containers around a value are the open brackets before it. -/
theorem Entered.atDepth (h : Entered t place stack) : AtDepth t stack.length := by
  induction h with
  | document ht => exact ⟨0, le_rfl, ht.scan⟩
  | firstItem _ hafter ih => exact ih.open (.inl rfl) hafter.keepsDepth
  | nextItem _ hitems _ hafter ih =>
    exact ih.open (.inl rfl) (hitems.keepsDepth.append (keepsDepth_comma hafter))
  | field _ hlead hkey ih => exact ih.open (.inr rfl) (hlead.keepsDepth.append hkey.keepsDepth)

theorem Ended.atDepth (h : Ended t stack) : AtDepth t stack.length := by
  cases h with
  | item h hitems _ => exact h.atDepth.open (.inl rfl) hitems.keepsDepth
  | field h hfields _ => exact h.atDepth.open (.inr rfl) hfields.keepsDepth

theorem Opens.atDepth (h : Opens t role stack) : AtDepth t stack.length := by
  cases h with
  | value h => exact h.atDepth
  | key h hlead hbefore =>
    exact h.atDepth.open (.inr rfl) (hlead.keepsDepth.append hbefore.keepsDepth)

theorem SpellsHalf.scan {half : List Char} {high : Option ℕ} (h : SpellsHalf half high)
    {depth deepest : ℕ} :
    half.foldl step (within true depth deepest) = within true depth deepest := by
  cases h with
  | none => rfl
  | high hcode _ => exact foldl_code hcode.2

/-- The containers around a string are the open brackets, wherever in the string the pass is. -/
theorem Opens.depth_ofText {u s w : List Char} (h : Opens t role stack) (hu : SpellsChars u s)
    (hw : ∀ depth deepest, (w.foldl step (within true depth deepest)).depth = depth) :
    (ofText (t ++ '"' :: (u ++ w))).depth = stack.length := by
  obtain ⟨deepest, -, ht⟩ := h.atDepth
  rw [ofText_append, ht, List.foldl_cons,
    show step (within false stack.length deepest) '"' = within true stack.length deepest from rfl,
    List.foldl_append, hu.scan, hw]

/-- **The open containers are the open brackets**, as long as nothing is refused. -/
theorem Unfinished.depth_ofText (h : Unfinished t s) : (ofText t).depth = s.stack.length := by
  cases h with
  | value h => exact h.atDepth.depth_eq
  | ended h => exact h.atDepth.depth_eq
  | firstKey h hbefore => exact (h.atDepth.open (.inr rfl) hbefore.keepsDepth).depth_eq
  | nextKey h hfields _ hbefore =>
    exact (h.atDepth.open (.inr rfl)
      (hfields.keepsDepth.append (keepsDepth_comma hbefore))).depth_eq
  | colon h hs hafter =>
    have hquoted : KeepsDepth _ := fun _ deepest hle =>
      ⟨deepest, hle, hs.scan_quoted.trans hafter.scan⟩
    exact (h.atDepth.append hquoted).depth_eq
  | word h hw _ =>
    have hplain := isPlain_of_isWord hw
    exact (h.atDepth.append (keepsDepth_of_isPlain fun c hc =>
      hplain c (List.mem_append_left _ hc))).depth_eq
  | number h hstart hu =>
    have hplain := List.forall_mem_cons.mpr ⟨isPlain_of_begin? hstart, isPlain_of_after? hu⟩
    exact (h.atDepth.append (keepsDepth_of_isPlain hplain)).depth_eq
  | @string _ u _ _ _ h hu =>
    rw [← List.append_nil u]
    exact h.depth_ofText hu fun _ _ => rfl
  | escape h hu => exact h.depth_ofText hu fun _ _ => rfl
  | code h hu hhalf hw _ _ =>
    refine h.depth_ofText hu fun _ _ => ?_
    rw [List.foldl_append, hhalf.scan, foldl_code hw]
    rfl
  | pairBackslash h hu hhalf =>
    refine h.depth_ofText hu fun _ _ => ?_
    rw [hhalf.scan]
    rfl
  | pairLetter h hu hhalf =>
    refine h.depth_ofText hu fun _ _ => ?_
    rw [List.foldl_append, hhalf.scan]
    rfl

end

/-! ### The limit of the reader -/

/-- Not more than the limit is opened, and that there is a limit is only told when it is reached. -/
def Outcome.IsLimited (depth : ℕ) : Outcome → Prop
  | .next s => s.stack.length ≤ max depth nestingLimit
  | .done _ _ => True
  | .fault kind _ => kind = .recursionLimit → nestingLimit ≤ depth

section

variable {stack : List Frame} {depth : ℕ}

theorem isLimited_next (mode : Mode) (h : stack.length ≤ depth) :
    (Outcome.next ⟨mode, stack⟩).IsLimited depth := h.trans (le_max_left _ _)

theorem isLimited_fault {kind : FaultKind} (bytes : ℕ) (h : kind ≠ .recursionLimit) :
    (Outcome.fault kind bytes).IsLimited depth := fun hkind => absurd hkind h

theorem isLimited_deliver (v : Json) (taken : Bool) (h : stack.length ≤ depth) :
    (deliver v taken stack).IsLimited depth := by
  cases stack with
  | nil => trivial
  | cons frame rest => cases frame <;> exact isLimited_next _ h

theorem isLimited_closeContainer (h : stack.length ≤ depth) :
    (closeContainer stack).IsLimited depth := by
  cases stack with
  | nil => exact isLimited_fault _ (by decide)
  | cons frame rest => exact isLimited_deliver _ _ (Nat.le_of_succ_le h)

theorem isLimited_openContainer (mode : Mode) (frame : Frame) (h : stack.length ≤ depth) :
    (openContainer mode frame stack).IsLimited depth := by
  unfold openContainer
  split_ifs with hlt
  · exact le_max_of_le_right hlt
  · exact fun _ => (not_lt.mp hlt).trans h

theorem isLimited_beginValue (c : Char) (h : stack.length ≤ depth) :
    (beginValue c stack).IsLimited depth := by
  unfold beginValue
  split_ifs
  · exact isLimited_next _ h
  · exact isLimited_openContainer _ _ h
  · exact isLimited_openContainer _ _ h
  · exact isLimited_next _ h
  · exact isLimited_next _ h
  · exact isLimited_next _ h
  · split
    · exact isLimited_next _ h
    · exact isLimited_fault _ (by decide)

theorem isLimited_afterValue (c : Char) (h : stack.length ≤ depth) :
    (afterValue c stack).IsLimited depth := by
  unfold afterValue
  split
  · exact isLimited_next _ h
  · split
    · split_ifs
      · exact isLimited_next _ h
      · exact isLimited_closeContainer h
      · exact isLimited_fault _ (by decide)
    · split_ifs
      · exact isLimited_next _ h
      · exact isLimited_closeContainer h
      · exact isLimited_fault _ (by decide)

theorem isLimited_afterNumber (n : Number) (c : Char) (h : stack.length ≤ depth) :
    (afterNumber n c stack).IsLimited depth := by
  unfold afterNumber
  cases stack with
  | nil => trivial
  | cons frame rest => cases frame <;> exact isLimited_afterValue c h

theorem isLimited_endString (role : StringRole) (chars : List Char) (h : stack.length ≤ depth) :
    (endString role chars stack).IsLimited depth := by
  unfold endString
  split
  · exact isLimited_next _ h
  · exact isLimited_deliver _ _ h

theorem isLimited_endCode (role : StringRole) (chars : List Char) (high : Option ℕ)
    (code bytes : ℕ) (h : stack.length ≤ depth) :
    (endCode role chars high code bytes stack).IsLimited depth := by
  unfold endCode
  cases high with
  | none =>
    dsimp only
    split_ifs
    · exact isLimited_fault _ (by decide)
    · exact isLimited_next _ h
    · exact isLimited_next _ h
  | some high =>
    dsimp only
    split_ifs
    · exact isLimited_next _ h
    · exact isLimited_fault _ (by decide)

end

/-- A character opens one container at most, and none beyond the limit. -/
theorem State.isLimited_step (s : State) (c : Char) : (s.step c).IsLimited s.stack.length := by
  obtain ⟨mode, stack⟩ := s
  have next (mode : Mode) : (Outcome.next ⟨mode, stack⟩).IsLimited stack.length :=
    isLimited_next mode le_rfl
  cases mode with
  | value place =>
    simp only [State.step]
    split_ifs
    · exact next _
    · cases place with
      | firstItem => exact isLimited_closeContainer le_rfl
      | _ => exact isLimited_fault _ (by decide)
    · exact isLimited_beginValue c le_rfl
  | ended => exact isLimited_afterValue c le_rfl
  | key first =>
    simp only [State.step]
    split_ifs
    · exact next _
    · exact next _
    · exact isLimited_closeContainer le_rfl
    · exact isLimited_fault _ (by decide)
    · exact isLimited_fault _ (by decide)
  | colon =>
    simp only [State.step]
    split_ifs
    · exact next _
    · exact next _
    · exact isLimited_fault _ (by decide)
  | word rest v =>
    cases rest with
    | nil => exact isLimited_deliver _ _ le_rfl
    | cons letter rest =>
      simp only [State.step]
      split_ifs
      · exact isLimited_fault _ (by decide)
      · exact isLimited_deliver _ _ le_rfl
      · exact next _
  | number state =>
    simp only [State.step]
    cases state.step c with
    | next => exact next _
    | invalid => exact isLimited_fault _ (by decide)
    | tooLarge => exact isLimited_fault _ (by decide)
    | ends =>
      cases state.value? with
      | some n => exact isLimited_afterNumber n c le_rfl
      | none => exact isLimited_fault _ (by decide)
  | string role chars =>
    simp only [State.step]
    split_ifs
    · exact isLimited_endString role chars le_rfl
    · exact next _
    · exact isLimited_fault _ (by decide)
    · exact next _
  | escape role chars =>
    simp only [State.step]
    split_ifs
    · exact next _
    · cases unescape? c with
      | some => exact next _
      | none => exact isLimited_fault _ (by decide)
  | code role chars high missing code =>
    simp only [State.step]
    split_ifs
    · exact next _
    · split
      · exact isLimited_endCode role chars high _ missing le_rfl
      · exact isLimited_fault _ (by decide)
  | pairBackslash role chars high =>
    simp only [State.step]
    split_ifs
    · exact next _
    · exact isLimited_fault _ (by decide)
  | pairLetter role chars high =>
    simp only [State.step]
    split_ifs
    · exact next _
    · exact isLimited_fault _ (by decide)

/-! ### Texts that are read -/

theorem endInContainer_ne_recursionLimit (stack : List Frame) :
    endInContainer stack ≠ .recursionLimit := by
  cases stack with
  | nil => decide
  | cons frame rest => cases frame <;> simp [endInContainer]

namespace State

theorem finish_ne_recursionLimit {s : State} {kind : FaultKind} (h : s.finish = .error kind) :
    kind ≠ .recursionLimit := by
  rintro rfl
  obtain ⟨mode, stack⟩ := s
  cases mode with
  | value place => cases place <;> cases h
  | ended => exact endInContainer_ne_recursionLimit stack (Except.error.inj h)
  | key first => cases first <;> cases h
  | number state =>
    unfold finish at h
    dsimp only at h
    split_ifs at h with hcomplete
    · cases h
    · split at h
      · cases h
      · exact endInContainer_ne_recursionLimit _ (Except.error.inj h)
      · cases h
  | _ => cases h

theorem isRefused_of_after? {s s' : State} {t : List Char} (h : s.mode.isRefused = true)
    (hafter : s.after? t = some s') : s'.mode.isRefused = true := by
  induction t generalizing s with
  | nil =>
    cases hafter
    exact h
  | cons c rest ih =>
    rw [after?] at hafter
    rcases step_of_isRefused (c := c) h with ⟨next, hnext, hrefused⟩ | ⟨bytes, hfault⟩
    · rw [hnext] at hafter
      exact ih hrefused hafter
    · rw [hfault] at hafter
      cases hafter

end State

theorem requireBlank_ne_recursionLimit {t : List Char} {fault : Fault}
    (h : requireBlank t = .error fault) : fault.kind ≠ .recursionLimit := by
  induction t with
  | nil => cases h
  | cons c rest ih =>
    rw [requireBlank] at h
    split at h
    · exact ih h
    · cases h
      show FaultKind.trailingCharacters ≠ _
      decide

namespace Nesting

theorem depth_le_deepest (t : List Char) : (ofText t).depth ≤ (ofText t).deepest := by
  have hstep (n : Nesting) (c : Char) (h : n.depth ≤ n.deepest) :
      (n.step c).depth ≤ (n.step c).deepest := by
    unfold step
    split_ifs <;> grind
  induction t using List.reverseRecOn with
  | nil => exact le_rfl
  | append_singleton t c ih =>
    rw [ofText_append]
    exact hstep _ c ih

/-- Brackets that were open are not forgotten. -/
theorem deepest_le_append (t u : List Char) :
    (ofText t).deepest ≤ (ofText (t ++ u)).deepest := by
  have hstep (n : Nesting) (c : Char) : n.deepest ≤ (n.step c).deepest := by
    unfold step
    split_ifs <;> grind
  induction u using List.reverseRecOn with
  | nil => rw [List.append_nil]
  | append_singleton u c ih =>
    rw [← List.append_assoc, ofText_append (t ++ u)]
    exact ih.trans (hstep _ c)

/-- No more brackets were open than before, or than are open now. -/
theorem deepest_concat_le (t : List Char) (c : Char) :
    (ofText (t ++ [c])).deepest ≤ max (ofText t).deepest (ofText (t ++ [c])).depth := by
  have hstep (n : Nesting) : (n.step c).deepest ≤ max n.deepest (n.step c).depth := by
    unfold step
    split_ifs <;> grind
  rw [ofText_append]
  exact hstep _

end Nesting

namespace Unfinished

variable {s s' : State} {t u rest rest' : List Char} {v : Json}

theorem bracketDepth_le (h : Unfinished t s) (hstack : s.stack.length ≤ nestingLimit)
    (ht : bracketDepth t ≤ nestingLimit) (hrun : s.run rest = .ok (v, rest')) :
    ∃ u, rest = u ++ rest' ∧ bracketDepth (t ++ u) ≤ nestingLimit := by
  induction rest generalizing t s with
  | nil =>
    obtain ⟨-, rfl⟩ := State.run_nil_eq_ok hrun
    exact ⟨[], rfl, by rwa [List.append_nil]⟩
  | cons c rest ih =>
    have hstep := h.step (c := c)
    have hlimit := s.isLimited_step c
    have hdeepest := Nesting.deepest_concat_le t c
    rcases State.run_cons_eq_ok hrun with ⟨next, hout, hrefused, hrun⟩ | ⟨hout, rfl⟩ | ⟨hout, rfl⟩
    · rw [hout] at hstep hlimit
      have hnext := hstep hrefused
      have hstack' : next.stack.length ≤ nestingLimit := hlimit.trans (max_le hstack le_rfl)
      rw [hnext.depth_ofText] at hdeepest
      obtain ⟨u, rfl, hu⟩ := ih hnext hstack' (hdeepest.trans (max_le ht hstack')) hrun
      exact ⟨c :: u, rfl, by rwa [List.append_assoc] at hu⟩
    · rw [hout] at hstep
      obtain ⟨w, hw, -⟩ := hstep
      -- the value is complete, so nothing is open after it
      rw [if_pos rfl] at hw
      rw [hw.scan] at hdeepest
      rw [bracketDepth] at ht
      refine ⟨[c], rfl, ?_⟩
      rw [bracketDepth, hw.scan]
      exact hdeepest.trans (max_le ht (Nat.zero_le _))
    · exact ⟨[], rfl, by rwa [List.append_nil]⟩

/-- If there are too many containers then so many brackets are open. -/
theorem le_bracketDepth (h : Unfinished t s) {fault : Fault}
    (hrun : s.run rest = .error fault) (hkind : fault.kind = .recursionLimit) :
    nestingLimit ≤ bracketDepth (t ++ rest) := by
  induction rest generalizing t s with
  | nil =>
    rw [State.run] at hrun
    cases hfinish : s.finish with
    | ok value =>
      rw [hfinish] at hrun
      cases hrun
    | error kind =>
      rw [hfinish] at hrun
      cases hrun
      exact absurd hkind (State.finish_ne_recursionLimit hfinish)
  | cons c rest ih =>
    have hstep := h.step (c := c)
    have hlimit := s.isLimited_step c
    rw [State.run] at hrun
    cases hout : s.step c with
    | fault kind bytes =>
      rw [hout] at hrun hlimit
      cases hrun
      calc nestingLimit ≤ s.stack.length := hlimit hkind
        _ = (Nesting.ofText t).depth := h.depth_ofText.symm
        _ ≤ (Nesting.ofText t).deepest := Nesting.depth_le_deepest t
        _ ≤ bracketDepth (t ++ c :: rest) := Nesting.deepest_le_append t _
    | done value taken =>
      rw [hout] at hrun
      cases taken <;> cases hrun
    | next next =>
      rw [hout] at hrun hstep
      cases hrefused : next.mode.isRefused with
      | true =>
        obtain ⟨fault', hfault, hne⟩ := State.run_of_isRefused rest hrefused
        cases hfault.symm.trans hrun
        exact absurd hkind hne
      | false =>
        rw [List.append_cons]
        exact ih (hstep hrefused) hrun

theorem of_after? (h : Unfinished t s) (hafter : s.after? u = some s')
    (hrefused : s'.mode.isRefused = false) : Unfinished (t ++ u) s' := by
  induction u generalizing t s with
  | nil =>
    cases hafter
    rwa [List.append_nil]
  | cons c rest ih =>
    have hstep := h.step (c := c)
    rw [State.after?] at hafter
    cases hout : s.step c with
    | fault kind bytes =>
      rw [hout] at hafter
      cases hafter
    | done value taken =>
      rw [hout] at hafter
      cases hafter
    | next next =>
      rw [hout] at hafter hstep
      rw [List.append_cons]
      refine ih (hstep ?_) hafter
      by_contra hnext
      rw [Bool.not_eq_false] at hnext
      cases (State.isRefused_of_after? hnext hafter).symm.trans hrefused

end Unfinished

/-- The reader has not refused this text so far, and so many containers are open after it. -/
inductive Takes : List Char → ℕ → Prop where
  /-- More is needed, or may come. -/
  | reading {t : List Char} {s : State} : State.initial.after? t = some s →
      s.mode.isRefused = false → Takes t s.stack.length
  /-- The text is complete. -/
  | complete {t : List Char} {v : Json} : read t = .ok v → Takes t 0

/-- **The open brackets are the open containers**, after every text that is not refused. -/
theorem Takes.depth_ofText {t : List Char} {depth : ℕ} (h : Takes t depth) :
    (Nesting.ofText t).depth = depth := by
  cases h with
  | reading hafter hrefused =>
    have hunfinished := unfinished_initial.of_after? hafter hrefused
    rw [List.nil_append] at hunfinished
    exact hunfinished.depth_ofText
  | complete hread =>
    obtain ⟨w, hw, -⟩ := exists_spellsText_of_read hread
    rw [hw.scan]
    rfl

variable {t : List Char}

/-- Texts that are read do not have too many brackets. -/
theorem bracketDepth_le_of_read {v : Json} (h : read t = .ok v) :
    bracketDepth t ≤ nestingLimit := by
  obtain ⟨⟨value, rest⟩, hvalue, hrest⟩ := bind_eq_ok_iff.mp h
  obtain ⟨_, hblank, hv⟩ := bind_eq_ok_iff.mp hrest
  cases hv
  obtain ⟨u, rfl, hu⟩ := unfinished_initial.bracketDepth_le (Nat.zero_le _) (Nat.zero_le _) hvalue
  obtain ⟨u', w, hrest, hw, -⟩ := unfinished_initial.run hvalue
  obtain rfl := List.append_cancel_right hrest
  have hrest := isBlank_of_requireBlank hblank
  rw [List.nil_append] at hu hw
  rw [bracketDepth, ofText_append, hw.scan, hrest.scan, ← hw.scan]
  exact hu

/-- Texts that are refused for their brackets have too many. -/
theorem le_bracketDepth_of_read {fault : Fault} (h : read t = .error fault)
    (hkind : fault.kind = .recursionLimit) : nestingLimit ≤ bracketDepth t := by
  cases hvalue : readValue t with
  | error fault' =>
    rw [read, hvalue] at h
    cases h
    exact unfinished_initial.le_bracketDepth hvalue hkind
  | ok result =>
    obtain ⟨value, rest⟩ := result
    rw [read, hvalue] at h
    cases hblank : requireBlank rest with
    | ok u => simp [hblank, bind, Except.bind, pure, Except.pure] at h
    | error fault' =>
      have hkind' := requireBlank_ne_recursionLimit hblank
      simp only [bind, Except.bind, hblank, Except.error.injEq] at h
      exact absurd hkind (h ▸ hkind')

end Solids.Json
