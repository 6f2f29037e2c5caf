import Mathlib.Data.Option.Basic
import Solids.Proofs.Postorder
import Solids.Proofs.Truthful
/-!
# Solids.Proofs.Replacement

**A document with another value at one place.** What is at other places stays: it is the same if it
does not hold the place, and an object or an array of as many items if it does.

Main definitions:

* `Json.put` — the document with another value at a place;
* `Json.SameOutside` — two values of one kind, whatever is inside;
* `Json.AgreeOff` — documents that differ at one place only.

Main statement: `Json.agreeOff_put`.
-/

namespace Solids

namespace Json

/-! ### Putting a value at a place -/

/-- The document with `x` at a place. A key that an object does not have yet is added. If nothing is
above the place the document stays as it is. -/
def put (d : Json) : Path → Json → Json
  | .document, x => x
  | .key parent name, x =>
    match d.at? parent with
    | some (.object fields) => d.put parent (.object (insertField name x fields))
    | _ => d
  | .index parent position, x =>
    match d.at? parent with
    | some (.array items) => d.put parent (.array (items.set position x))
    | _ => d

variable {d d' v v' : Json} {p parent q : Path}

theorem field?_insertField_of_ne {key key' : String} (h : key' ≠ key) (v : Json)
    (fields : List (String × Json)) :
    field? (insertField key v fields) key' = field? fields key' := by
  have hne : (key' == key) = false := beq_eq_false_iff_ne.mpr h
  unfold field?
  induction fields with
  | nil => simp [insertField, List.lookup_cons, hne]
  | cons entry rest ih =>
    obtain ⟨k, w⟩ := entry
    rw [insertField]
    split_ifs with hlt heq
    · rw [List.lookup_cons, hne]
    · subst heq
      rw [List.lookup_cons, List.lookup_cons, hne]
    · rw [List.lookup_cons, List.lookup_cons, ih]

/-- What was put somewhere is there. -/
theorem at?_put_self (h : (d.at? p).isSome) (x : Json) : (d.put p x).at? p = some x := by
  induction p generalizing x with
  | document => rfl
  | key parent name ih =>
    obtain ⟨w, hw⟩ := Option.isSome_iff_exists.mp h
    obtain ⟨v, hv, hname⟩ := Option.bind_eq_some_iff.mp hw
    cases v with
    | object fields =>
      rw [put, hv]
      exact at?_key (ih (by rw [hv]; rfl) _) (field?_insertField_self name x fields)
    | _ => cases hname
  | index parent position ih =>
    obtain ⟨w, hw⟩ := Option.isSome_iff_exists.mp h
    obtain ⟨v, hv, hposition⟩ := Option.bind_eq_some_iff.mp hw
    cases v with
    | array items =>
      rw [put, hv]
      refine at?_index (ih (by rw [hv]; rfl) _) ?_
      exact List.getElem?_set_self (List.getElem?_eq_some_iff.mp hposition).1
    | _ => cases hposition

/-! ### What stays -/

/-- The values are equal, or both are objects, or both are arrays of as many items. -/
inductive SameOutside : Json → Json → Prop where
  /-- The same value. -/
  | refl (v : Json) : SameOutside v v
  /-- Any two objects. -/
  | object (fields fields' : List (String × Json)) : SameOutside (.object fields) (.object fields')
  /-- Arrays of as many items. -/
  | array {items items' : List Json} : items.length = items'.length →
      SameOutside (.array items) (.array items')

/-- The documents differ at one place only. What is around this place has another value inside, and
what is elsewhere is the same. -/
def AgreeOff (p : Path) (d d' : Json) : Prop :=
  ∀ q, ¬ p.Within q → Option.Rel SameOutside (d.at? q) (d'.at? q) ∧
    (¬ q.Within p → d.at? q = d'.at? q)

theorem rel_sameOutside_refl (o : Option Json) : Option.Rel SameOutside o o := by
  cases o with
  | none => exact .none
  | some v => exact .some (.refl v)

theorem AgreeOff.refl (p : Path) (d : Json) : AgreeOff p d d :=
  fun _ _ => ⟨rel_sameOutside_refl _, fun _ => rfl⟩

/-- Values that differ in one part only differ at the place of this part only. -/
theorem at?_of_part (hv : d.at? parent = some v) (hv' : d'.at? parent = some v')
    (hkey : ∀ name, parent.key name ≠ p → v.get? name = v'.get? name)
    (hitem : ∀ i, parent.index i ≠ p → v.item? i = v'.item? i)
    (hq : parent.Within q) (hne : q ≠ parent) (hp : ¬ p.Within q) : d.at? q = d'.at? q := by
  induction q with
  | document => exact absurd hq.symm hne
  | key q name ih =>
    have hq : parent.Within q := hq.resolve_left hne.symm
    by_cases hparent : q = parent
    · subst hparent
      rw [at?, at?, hv, hv']
      exact hkey name fun h => hp (.inl h.symm)
    · rw [at?, at?, ih hq hparent fun h => hp (.inr h)]
  | index q i ih =>
    have hq : parent.Within q := hq.resolve_left hne.symm
    by_cases hparent : q = parent
    · subst hparent
      rw [at?, at?, hv, hv']
      exact hitem i fun h => hp (.inl h.symm)
    · rw [at?, at?, ih hq hparent fun h => hp (.inr h)]

/-- Documents that differ at one place only, and there in one part only, differ at the place of this
part only. -/
theorem AgreeOff.of_parent (h : AgreeOff parent d d') (hv : d.at? parent = some v)
    (hv' : d'.at? parent = some v') (hsame : SameOutside v v')
    (hkey : ∀ name, parent.key name ≠ p → v.get? name = v'.get? name)
    (hitem : ∀ i, parent.index i ≠ p → v.item? i = v'.item? i)
    (hp : parent.Within p) : AgreeOff p d d' := by
  intro q hq
  by_cases hparent : parent.Within q
  · by_cases heq : q = parent
    · subst heq
      rw [hv, hv']
      exact ⟨.some hsame, fun hnot => absurd hp hnot⟩
    · have hat := at?_of_part hv hv' hkey hitem hparent heq hq
      rw [hat]
      exact ⟨rel_sameOutside_refl _, fun _ => rfl⟩
  · obtain ⟨hrel, heq⟩ := h q hparent
    exact ⟨hrel, fun hnot => heq fun hwithin => hnot (hwithin.trans hp)⟩

/-- A value that is put somewhere changes nothing elsewhere. -/
theorem agreeOff_put (d : Json) (p : Path) (x : Json) : AgreeOff p d (d.put p x) := by
  induction p generalizing x with
  | document => exact fun q hq => absurd (.document q) hq
  | key parent name ih =>
    rw [put]
    split
    · next fields hv =>
      refine (ih _).of_parent hv (at?_put_self (by rw [hv]; rfl) _) (.object _ _) ?_
        (fun _ _ => rfl)
        ((Path.Within.refl parent).key name)
      intro name' hne
      exact (field?_insertField_of_ne (fun h => hne (by rw [h])) x fields).symm
    · exact .refl _ d
  | index parent position ih =>
    rw [put]
    split
    · next items hv =>
      refine (ih _).of_parent hv (at?_put_self (by rw [hv]; rfl) _)
        (.array List.length_set.symm) (fun _ _ => rfl) ?_ ((Path.Within.refl parent).index position)
      intro i hne
      exact (List.getElem?_set_ne (fun h => hne (by rw [h]))).symm
    · exact .refl _ d

end Json

end Solids
