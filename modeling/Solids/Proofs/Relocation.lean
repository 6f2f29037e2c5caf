import Solids.Proofs.Grammar
/-!
# Solids.Proofs.Relocation

**Reading does not depend on the place.** The readers of a document are handed the place of what
they read, and use it for nothing but their reports. What is read at one place is thus read at any
other one, and what is reported from there is reported as far below the other place.

Main definitions:

* `Path.join` — a place inside of what is at another place;
* `Relocates` — the reader does the same wherever its value is.

Main statements:

* `Node.relocates_ofJson` — the reader of nodes does;
* `Node.ofJson_eq_or_eq` — what it makes of one value at two places.
-/

namespace Solids

/-- The place `q` of something inside of what is at `p`. -/
def Path.join (p : Path) : Path → Path
  | .document => p
  | .key parent name => (p.join parent).key name
  | .index parent position => (p.join parent).index position

/-- The error, reported from below another place. -/
def ValidationError.under (p : Path) (e : ValidationError) : ValidationError :=
  { e with path := p.join e.path }

/-- An object that is further down. -/
def PlacedObject.under (p : Path) (o : PlacedObject) : PlacedObject :=
  { o with path := p.join o.path }

/-- Further down the reader does the same, and reports it from there. -/
def Relocates {α : Type} (read : Path → Json → Except ValidationError α) : Prop :=
  ∀ p path v, read (p.join path) v = (read path v).mapError (·.under p)

/-! ### Errors that are changed -/

section Except

variable {ε ε' α β : Type} (g : ε → ε')

@[simp] theorem mapError_ok (a : α) : (Except.ok a).mapError g = .ok a := rfl

@[simp] theorem mapError_error (e : ε) :
    (Except.error e : Except ε α).mapError g = .error (g e) := rfl

@[simp] theorem mapError_pure (a : α) : (pure a : Except ε α).mapError g = pure a := rfl

theorem mapError_bind (x : Except ε α) (f : α → Except ε β) :
    (x >>= f).mapError g = x.mapError g >>= fun a => (f a).mapError g := by
  cases x <;> rfl

theorem mapError_map (x : Except ε α) (f : α → β) : (f <$> x).mapError g = f <$> x.mapError g := by
  cases x <;> rfl

end Except

/-! ### Readers of values -/

namespace Json

theorem relocates_expectObject : Relocates fun path v => v.expectObject path := by
  intro p path v
  cases v <;> rfl

theorem relocates_expectArray : Relocates fun path v => v.expectArray path := by
  intro p path v
  cases v <;> rfl

theorem relocates_expectString : Relocates fun path v => v.expectString path := by
  intro p path v
  cases v <;> rfl

theorem relocates_expectDouble : Relocates fun path v => v.expectDouble path := by
  intro p path v
  have hnumber : v.expectNumber (p.join path) = (v.expectNumber path).mapError (·.under p) := by
    cases v <;> rfl
  simp only [expectDouble, mapError_bind, hnumber]
  congr 1
  funext n
  split <;> rfl

theorem relocates_expectVec3 : Relocates fun path v => v.expectVec3 path := by
  intro p path v
  have hitem (i : ℕ) (w : Json) : w.expectDouble ((p.join path).index i) =
      (w.expectDouble (path.index i)).mapError (·.under p) :=
    relocates_expectDouble p (path.index i) w
  simp only [expectVec3, mapError_bind, relocates_expectArray p path v]
  congr 1
  funext items
  split
  · simp only [mapError_bind, hitem, mapError_pure]
  · rfl

theorem relocates_expectPositive : Relocates fun path v => v.expectPositive path := by
  intro p path v
  simp only [expectPositive, mapError_bind, relocates_expectDouble p path v]
  congr 1
  funext x
  split <;> rfl

theorem relocates_expectSegments : Relocates fun path v => v.expectSegments path := by
  intro p path v
  simp only [expectSegments, mapError_bind, relocates_expectDouble p path v]
  congr 1
  funext x
  split
  · split <;> rfl
  · rfl

end Json

/-! ### Readers of objects -/

namespace PlacedObject

open Json

variable {α : Type} (p : Path) (o : PlacedObject)
  {read : Path → Json → Except ValidationError α}

theorem get_under (key : String) (hread : Relocates read) :
    (o.under p).get key read = (o.get key read).mapError (·.under p) := by
  have hfield : (o.under p).required key = (o.required key).mapError (·.under p) := by
    simp only [required, under]
    cases field? o.fields key <;> rfl
  simp only [PlacedObject.get, mapError_bind, hfield]
  congr 1
  funext w
  exact hread p (o.path.key key) w

theorem getOptional_under (key : String) (hread : Relocates read) :
    (o.under p).getOptional key read = (o.getOptional key read).mapError (·.under p) := by
  simp only [getOptional, under]
  cases field? o.fields key with
  | none => rfl
  | some w =>
    simp only [mapError_map]
    exact congrArg _ (hread p (o.path.key key) w)

theorem center_under : (o.under p).center = o.center.mapError (·.under p) :=
  getOptional_under p o "center" relocates_expectVec3

theorem segments_under : (o.under p).segments = o.segments.mapError (·.under p) :=
  getOptional_under p o "segments" relocates_expectSegments

theorem cuboid_under : (o.under p).cuboid = o.cuboid.mapError (·.under p) := by
  simp only [cuboid, mapError_bind, get_under p o _ relocates_expectVec3, center_under,
    mapError_pure]

theorem sphere_under : (o.under p).sphere = o.sphere.mapError (·.under p) := by
  simp only [sphere, mapError_bind, get_under p o _ relocates_expectPositive, center_under,
    segments_under, mapError_pure]

theorem cylinder_under : (o.under p).cylinder = o.cylinder.mapError (·.under p) := by
  simp only [cylinder, mapError_bind, get_under p o _ relocates_expectPositive, center_under,
    segments_under, mapError_pure]

end PlacedObject

/-! ### Readers of nodes -/

namespace Node

open Json PlacedObject

variable {read : Path → Json → Except ValidationError (Node Double)}

theorem itemsFrom_join (hread : Relocates read) (p path : Path) (i : ℕ) (items : List Json) :
    itemsFrom read (p.join path) i items
      = (itemsFrom read path i items).mapError (·.under p) := by
  induction items generalizing i with
  | nil => rfl
  | cons item rest ih =>
    have hitem : read ((p.join path).index i) item = (read (path.index i) item).mapError _ :=
      hread p (path.index i) item
    simp only [itemsFrom, mapError_bind, hitem, ih, mapError_pure]

theorem childrenOf_under (hread : Relocates read) (p : Path) (o : PlacedObject) :
    childrenOf (o.under p) read = (childrenOf o read).mapError (·.under p) := by
  refine get_under p o "children" fun p path v => ?_
  simp only [mapError_bind, relocates_expectArray p path v]
  congr 1
  funext items
  split
  · rfl
  · exact itemsFrom_join hread p path 0 items

theorem combinationOf_under (hread : Relocates read) (p : Path) (o : PlacedObject)
    (combination : Combination) : combinationOf (o.under p) combination read
      = (combinationOf o combination read).mapError (·.under p) := by
  simp only [combinationOf, mapError_bind, childrenOf_under hread, mapError_pure]

theorem motionOf_under (hread : Relocates read) (p : Path) (o : PlacedObject) (key : String)
    (motion : Vec3 Double → Motion Double) : motionOf (o.under p) key motion read
      = (motionOf o key motion read).mapError (·.under p) := by
  simp only [motionOf, mapError_bind, get_under p o _ relocates_expectVec3, get_under p o _ hread,
    mapError_pure]

theorem ofKind_under (hread : Relocates read) (p : Path) (o : PlacedObject) (kind : String) :
    ofKind kind (o.under p) read = (ofKind kind o read).mapError (·.under p) := by
  unfold ofKind
  split
  case h_1 => simp only [mapError_map, cuboid_under]
  case h_2 => simp only [mapError_map, sphere_under]
  case h_3 => simp only [mapError_map, cylinder_under]
  case h_4 => exact combinationOf_under hread p o _
  case h_5 => exact combinationOf_under hread p o _
  case h_6 => exact combinationOf_under hread p o _
  case h_7 => exact motionOf_under hread p o _ _
  case h_8 => exact motionOf_under hread p o _ _
  case h_9 => exact motionOf_under hread p o _ _
  case h_10 => rfl

theorem relocates_ofJsonWithin (levels : ℕ) : Relocates (ofJsonWithin levels) := by
  induction levels with
  | zero => exact fun _ _ _ => rfl
  | succ levels ih =>
    intro p path v
    simp only [ofJsonWithin, mapError_bind, relocates_expectObject p path v]
    congr 1
    funext fields
    have htype := get_under p ⟨fields, path⟩ "type" relocates_expectString
    have hkind := ofKind_under ih p ⟨fields, path⟩
    simp only [PlacedObject.under] at htype hkind
    simp only [htype, hkind]

/-- The reader of nodes does the same at all places. -/
theorem relocates_ofJson : Relocates Node.ofJson := relocates_ofJsonWithin maxLevels

/-- A value is one node at all places, or has one thing wrong with it, which is reported from as
far below the place of the value. -/
theorem ofJson_eq_or_eq (v : Json) (p q : Path) :
    (∃ n, ofJson p v = .ok n ∧ ofJson q v = .ok n) ∨
      ∃ suffix cause, ofJson p v = .error ⟨p.join suffix, cause⟩ ∧
        ofJson q v = .error ⟨q.join suffix, cause⟩ := by
  have hp : ofJson p v = (ofJson .document v).mapError _ := relocates_ofJson p .document v
  have hq : ofJson q v = (ofJson .document v).mapError _ := relocates_ofJson q .document v
  rw [hp, hq]
  cases ofJson .document v with
  | ok n => exact .inl ⟨n, rfl, rfl⟩
  | error e => exact .inr ⟨e.path, e.cause, rfl, rfl⟩

end Node

end Solids
