import Solids.Proofs.Checks
import Solids.Proofs.Replacement
/-!
# Solids.Proofs.FirstFault

**The first fault of a document is the one that is reported.** What is reported is the first of the
checks at which something is wrong, and what is at later places has no influence.

Main definitions:

* `Tracks` — the checks of two documents are the same up to a place at which they differ;
* `Recipe.changed` — a document with other values at some places.

Main statement: `Recipe.first_fault_of_ofJson`.

Which places are checked depends on the values at other ones: on the type of a node, and on the
number of items. The check of the place that a value is changed at is itself the first one that can
notice. So the checks of two documents that differ at one place are compared up to this check only.
-/

namespace Solids

/-! ### Documents that differ at one place -/

/-- The checks of two documents are the same, with the same outcome, up to the first one of the
place `p` or of something in it. -/
inductive Tracks (d d' : Json) (p : Path) : List Check → List Check → Prop where
  /-- All are the same. -/
  | nil : Tracks d d' p [] []
  /-- The first one is the same. -/
  | cons {c : Check} {checks checks' : List Check} : c.error? d = c.error? d' →
      Tracks d d' p checks checks' → Tracks d d' p (c :: checks) (c :: checks')
  /-- From here on the checks may differ. -/
  | stop {c : Check} {checks : List Check} (checks' : List Check) : p.Within c.path →
      Tracks d d' p (c :: checks) checks'

section Tracks

variable {d d' : Json} {p : Path} {c : Check} {checks checks' : List Check}

theorem Tracks.append {more more' : List Check} (h : Tracks d d' p checks checks')
    (hmore : Tracks d d' p more more') : Tracks d d' p (checks ++ more) (checks' ++ more') := by
  induction h with
  | nil => exact hmore
  | cons hc _ ih => exact .cons hc ih
  | stop checks' hp => exact .stop _ hp

theorem Tracks.flatMap {ι : Type} {l : List ι} {f g : ι → List Check}
    (h : ∀ a ∈ l, Tracks d d' p (f a) (g a)) : Tracks d d' p (l.flatMap f) (l.flatMap g) := by
  induction l with
  | nil => exact .nil
  | cons a l ih =>
    rw [List.forall_mem_cons] at h
    rw [List.flatMap_cons, List.flatMap_cons]
    exact h.1.append (ih h.2)

/-- A check that is the same unless it is of the place. -/
theorem Tracks.check (hc : ¬ p.Within c.path → c.error? d = c.error? d')
    (h : ¬ p.Within c.path → Tracks d d' p checks checks') :
    Tracks d d' p (c :: checks) (c :: checks') := by
  by_cases hp : p.Within c.path
  · exact .stop _ hp
  · exact .cons (hc hp) (h hp)

/-- What is checked before the place is the same. -/
theorem Tracks.exists_eq_append {before after : List Check}
    (h : Tracks d d' p (before ++ c :: after) checks')
    (hbefore : ∀ b ∈ before, ¬ p.Within b.path) (hc : ¬ p.Within c.path) :
    ∃ after', checks' = before ++ c :: after' ∧ (∀ b ∈ before, b.error? d = b.error? d') ∧
      c.error? d = c.error? d' := by
  induction before generalizing checks' with
  | nil =>
    cases h with
    | cons hsame _ => exact ⟨_, rfl, nofun, hsame⟩
    | stop _ hp => exact absurd hp hc
  | cons b before ih =>
    rw [List.forall_mem_cons] at hbefore
    cases h with
    | cons hsame htracks =>
      obtain ⟨after', rfl, hsames, hcheck⟩ := ih htracks hbefore.2
      exact ⟨after', rfl, List.forall_mem_cons.mpr ⟨hsame, hsames⟩, hcheck⟩
    | stop _ hp => exact absurd hp hbefore.1

end Tracks

namespace Json

variable {d d' : Json} {p place : Path} {below below' : Path → Option Mismatch → List Check}

/-- What is inside of an object or an array is of no account for a check, unless it is that of the
version, which is quoted. -/
theorem SameOutside.error?_eq {v w : Json} (h : v.SameOutside w) {expected : Expected}
    (hversion : expected ≠ .version) (path : Path) :
    expected.error? path v = expected.error? path w := by
  cases h with
  | refl => rfl
  | object fields fields' => cases expected <;> first | rfl | exact absurd rfl hversion
  | @array items items' hlength =>
    have hempty : items.isEmpty = items'.isEmpty := by
      cases items <;> cases items' <;> first | rfl | cases hlength
    cases expected <;>
      first | rfl | exact absurd rfl hversion | simp only [Expected.error?, hlength, hempty]

variable (hd : AgreeOff p d d')

include hd

theorem AgreeOff.error?_eq {c : Check} (hversion : c.expected ≠ .version)
    (hp : ¬ p.Within c.path) : c.error? d = c.error? d' := by
  have hrel := (hd c.path hp).1
  unfold Check.error?
  generalize d.at? c.path = v at hrel ⊢
  generalize d'.at? c.path = w at hrel ⊢
  cases hrel with
  | none => rfl
  | some h => exact h.error?_eq hversion c.path

theorem AgreeOff.itemCount_eq (hp : ¬ p.Within place) : d.itemCount place = d'.itemCount place := by
  have hrel := (hd place hp).1
  unfold itemCount
  generalize d.at? place = v at hrel ⊢
  generalize d'.at? place = w at hrel ⊢
  cases hrel with
  | none => rfl
  | some h =>
    cases h with
    | refl => rfl
    | object => rfl
    | array hlength => exact hlength

theorem AgreeOff.tracks_check {c : Check} (hversion : c.expected ≠ .version) :
    Tracks d d' p [c] [c] :=
  .check (hd.error?_eq hversion) fun _ => .nil

variable (hbelow : ∀ place absent, Tracks d d' p (below place absent) (below' place absent))

include hbelow

theorem AgreeOff.tracks_content {content : SlotContent} (hversion : content ≠ .single .version)
    (place : Path) (absent : Option Mismatch) :
    Tracks d d' p (content.checks d below place absent)
      (content.checks d' below' place absent) := by
  cases content with
  | single expected => exact hd.tracks_check fun h => hversion (congrArg _ h)
  | vector =>
    refine .check (hd.error?_eq (show Expected.triple ≠ .version by decide)) fun hp => ?_
    rw [components, components, hd.itemCount_eq hp]
    split
    · rw [List.map_eq_flatMap]
      exact .flatMap fun i _ => hd.tracks_check (show Expected.number ≠ .version by decide)
    · exact .nil
  | node => exact hbelow place absent
  | nodes =>
    refine .check (hd.error?_eq (show Expected.items ≠ .version by decide)) fun hp => ?_
    rw [itemChecks, itemChecks, hd.itemCount_eq hp]
    exact .flatMap fun i _ => hbelow (place.index i) none

theorem AgreeOff.tracks_slots {slots : List Slot}
    (hversion : ∀ s ∈ slots, s.content ≠ .single .version) (path : Path) :
    Tracks d d' p (slots.flatMap (Slot.checks d below path))
      (slots.flatMap (Slot.checks d' below' path)) :=
  .flatMap fun s hs => hd.tracks_content hbelow (hversion s hs) _ _

omit hbelow in
theorem AgreeOff.tracks_objectChecks {slots : List (String × Json) → List Slot} {path : Path}
    (hslots : ∀ fields fields', d.at? path = some (.object fields) →
      d'.at? path = some (.object fields') →
      Tracks d d' p ((slots fields).flatMap (Slot.checks d below path))
        ((slots fields').flatMap (Slot.checks d' below' path))) (absent : Option Mismatch) :
    Tracks d d' p (d.objectChecks below slots path absent)
      (d'.objectChecks below' slots path absent) := by
  refine .check (hd.error?_eq nofun) fun hp => ?_
  have hrel := (hd path hp).1
  generalize hv : d.at? path = v at hrel ⊢
  generalize hw : d'.at? path = w at hrel ⊢
  cases hrel with
  | none => exact .nil
  | @some v _ h =>
    cases h with
    | object fields fields' => exact hslots _ _ hv hw
    | array => exact .nil
    | refl =>
      cases v with
      | object fields => exact hslots _ _ hv hw
      | _ => exact .nil

end Json

theorem Slot.content_ne_version {fields : List (String × Json)} :
    ∀ s ∈ Slot.ofNode fields, s.content ≠ .single .version := by
  unfold Slot.ofNode
  split
  · unfold Slot.ofType
    split <;> decide
  · decide

namespace Node

open Json

variable {d d' : Json} {p : Path} {below below' : Path → Option Mismatch → List Check}

/-- Two nodes that differ at one place have the same slots, unless this place is their type. -/
theorem tracks_ofNode (hd : AgreeOff p d d')
    (hbelow : ∀ place absent, Tracks d d' p (below place absent) (below' place absent))
    {path : Path} {fields fields' : List (String × Json)} (hat : d.at? path = some (.object fields))
    (hat' : d'.at? path = some (.object fields')) :
    Tracks d d' p ((Slot.ofNode fields).flatMap (Slot.checks d below path))
      ((Slot.ofNode fields').flatMap (Slot.checks d' below' path)) := by
  by_cases hp : p.Within (path.key "type")
  · rw [Slot.ofNode, List.flatMap_cons]
    exact .stop _ hp
  · have hslots : Slot.ofNode fields = Slot.ofNode fields' := by
      have hrel := (hd _ hp).1
      rw [at?, at?, hat, hat'] at hrel
      change Option.Rel SameOutside (field? fields "type") (field? fields' "type") at hrel
      unfold Slot.ofNode
      generalize field? fields "type" = v at hrel ⊢
      generalize field? fields' "type" = w at hrel ⊢
      rcases hrel with (_ | _ | _) | _ <;> rfl
    rw [hslots]
    exact hd.tracks_slots hbelow Slot.content_ne_version path

theorem tracks_checks (hd : AgreeOff p d d') (levels : ℕ) (place : Path)
    (absent : Option Mismatch) :
    Tracks d d' p (Node.checks d levels place absent) (Node.checks d' levels place absent) := by
  induction levels generalizing place absent with
  | zero => exact hd.tracks_check nofun
  | succ levels ih =>
    exact hd.tracks_objectChecks (fun _ _ hat hat' => tracks_ofNode hd ih hat hat') absent

end Node

namespace Recipe

open Json

variable {d d' : Json} {p : Path}

/-- The place of the version. -/
def versionPlace : Path := .key .document "version"

/-- Nothing inside of the version is checked by itself. -/
theorem eq_versionPlace {c : Check} (hc : c ∈ checks d) (h : versionPlace.Within c.path) :
    c.path = versionPlace := by
  rw [checks, objectChecks] at hc
  rcases List.mem_cons.mp hc with rfl | hc
  · cases h
  split at hc
  · obtain ⟨s, hs, hc⟩ := List.mem_flatMap.mp hc
    -- the field that the place is in is the one that it is also in as a part of the version
    have hwithin := (s.content.ordered_checks (Node.ordered_checks d maxLevels) _ _).within c hc
    have hkey : Path.key .document s.key = versionPlace := hwithin.eq_of_length_eq h rfl
    simp only [Slot.ofDocument, List.mem_cons, List.not_mem_nil, or_false] at hs
    rcases hs with rfl | rfl | rfl | rfl
    · obtain rfl := List.mem_singleton.mp hc
      rfl
    all_goals exact absurd hkey (by decide)
  · cases hc

theorem tracks_checks (hd : AgreeOff p d d') (hp : versionPlace.Within p → p = versionPlace) :
    Tracks d d' p (checks d) (checks d') := by
  refine hd.tracks_objectChecks (fun fields fields' hat hat' => ?_) none
  have hbelow := Node.tracks_checks hd maxLevels
  have hversion : Tracks d d' p [⟨versionPlace, .version, some (.missingField "version")⟩]
      [⟨versionPlace, .version, some (.missingField "version")⟩] := by
    refine .check (fun hnot => ?_) fun _ => .nil
    have hsame := (hd versionPlace hnot).2 fun h => hnot (by rw [hp h]; exact .refl _)
    rw [Check.error?, Check.error?, hsame]
  exact hversion.append (hd.tracks_slots hbelow (by decide) .document)

/-! ### The first fault -/

/-- The checks of the document begin with some that succeed, and one that fails with this error. -/
structure FailsFirst (d : Json) (before : List Check) (c : Check) (e : ValidationError) : Prop where
  /-- These are the first checks. -/
  checks_eq : ∃ after, checks d = before ++ c :: after
  /-- All before the last of them succeed. -/
  succeeds : ∀ b ∈ before, b.error? d = none
  /-- The last one fails. -/
  fails : c.error? d = some e

section FailsFirst

variable {before : List Check} {c : Check} {e : ValidationError}

theorem FailsFirst.ofJson_eq (h : FailsFirst d before c e) : ofJson d = .error e := by
  obtain ⟨after, hchecks⟩ := h.checks_eq
  rw [← failure?_eq_some_iff, ← follows_ofJson d, List.findSome?_eq_some_iff]
  exact ⟨before, c, after, hchecks, h.fails, h.succeeds⟩

/-- This stays so if a value is put at a place that was not checked yet. -/
theorem FailsFirst.put (h : FailsFirst d before c e) (hbefore : ∀ b ∈ before, ¬ p.Within b.path)
    (hc : ¬ p.Within c.path) (hp : versionPlace.Within p → p = versionPlace) (x : Json) :
    FailsFirst (d.put p x) before c e := by
  obtain ⟨after, hchecks⟩ := h.checks_eq
  have htracks := tracks_checks (agreeOff_put d p x) hp
  rw [hchecks] at htracks
  obtain ⟨after', hchecks', hsame, hfails⟩ := htracks.exists_eq_append hbefore hc
  exact ⟨⟨after', hchecks'⟩, fun b hb => (hsame b hb).symm.trans (h.succeeds b hb),
    hfails.symm.trans h.fails⟩

theorem exists_failsFirst (h : ofJson d = .error e) :
    ∃ before c after, checks d = before ++ c :: after ∧ FailsFirst d before c e := by
  have hfollows := follows_ofJson d
  rw [Follows, h, failure?, List.findSome?_eq_some_iff] at hfollows
  obtain ⟨before, c, after, hchecks, hfails, hsucceeds⟩ := hfollows
  exact ⟨before, c, after, hchecks, ⟨after, hchecks⟩, hsucceeds, hfails⟩

end FailsFirst

section

variable {α : Type} {x y : α} {before after : List α}

theorem mem_of_sublist_before (hnodup : (before ++ x :: after).Nodup)
    (h : [y, x].Sublist (before ++ x :: after)) : y ∈ before := by
  have hx : x ∉ after := (List.nodup_cons.mp (List.nodup_append.mp hnodup).2.1).1
  obtain ⟨first, second, heq, hfirst, hsecond⟩ := List.sublist_append_iff.mp h
  cases first with
  | nil =>
    obtain rfl : [y, x] = second := heq
    rcases List.sublist_cons_iff.mp hsecond with hafter | ⟨_, ⟨⟩, hafter⟩
    · exact absurd (hafter.subset (.tail y (.head _))) hx
    · exact absurd (hafter.subset (.head _)) hx
  | cons z first =>
    obtain ⟨rfl, -⟩ := List.cons.inj heq
    exact hfirst.subset (.head _)

theorem mem_of_sublist_after (hnodup : (before ++ x :: after).Nodup)
    (h : [x, y].Sublist (before ++ x :: after)) : y ∈ after := by
  obtain ⟨first, second, heq, hfirst, hsecond⟩ := List.sublist_append_iff.mp h
  cases first with
  | nil =>
    obtain rfl : [x, y] = second := heq
    rcases List.sublist_cons_iff.mp hsecond with hafter | ⟨_, ⟨⟩, hafter⟩
    · exact hafter.subset (.tail x (.head _))
    · exact hafter.subset (.head _)
  | cons z first =>
    obtain ⟨rfl, -⟩ := List.cons.inj heq
    have hx : x ∈ before := hfirst.subset (.head _)
    exact absurd rfl ((List.nodup_append.mp hnodup).2.2 x hx x (.head _))

end

/-- The document with other values at some places, put there one after the other. -/
def changed (d : Json) (changes : List (Path × Json)) : Json :=
  changes.foldl (fun d change => d.put change.1 change.2) d

/-- Whatever is put at places of later checks, the first one fails as before. -/
theorem FailsFirst.changed {v : Json} {before after : List Check} {c : Check} {e : ValidationError}
    (hchecks : checks v = before ++ c :: after) (h : FailsFirst v before c e)
    {changes : List (Path × Json)} (hchanges : ∀ change ∈ changes, change.1 ∈ after.map (·.path)) :
    FailsFirst (changed v changes) before c e := by
  have hordered := (ordered_checks v).inOrder
  rw [hchecks, List.pairwise_append, List.pairwise_cons] at hordered
  obtain ⟨-, ⟨hc, -⟩, hbefore⟩ := hordered
  induction changes using List.reverseRecOn with
  | nil => exact h
  | append_singleton changes change ih =>
    rw [List.forall_mem_append, List.forall_mem_singleton] at hchanges
    obtain ⟨later, hlater, hplace⟩ := List.mem_map.mp hchanges.2
    rw [Recipe.changed, List.foldl_append]
    refine (ih hchanges.1).put ?_ ?_ ?_ change.2 <;> rw [← hplace]
    · exact fun b hb => hbefore b hb later (.tail c hlater)
    · exact hc later hlater
    · exact eq_versionPlace (d := v) (by rw [hchecks]; simp [hlater])

end Recipe

namespace Node

variable {read : Path → Json → Except ValidationError (Node Double)} {earlier later : List Json}
  {item : Json} {e : ValidationError}

/-- Of several items the first one that fails is reported. -/
theorem itemsFrom_eq_error {place : Path} (k : ℕ)
    (hearlier : ∀ i w, earlier[i]? = some w → ∃ n, read (place.index (k + i)) w = .ok n)
    (hitem : read (place.index (k + earlier.length)) item = .error e) :
    itemsFrom read place k (earlier ++ item :: later) = .error e := by
  induction earlier generalizing k with
  | nil =>
    rw [List.nil_append, itemsFrom, show read (place.index k) item = .error e from hitem]
    rfl
  | cons w earlier ih =>
    obtain ⟨n, hn⟩ := hearlier 0 w rfl
    rw [List.cons_append, itemsFrom, show read (place.index k) w = .ok n from hn]
    have hrest := ih (k + 1) (fun i w hw => by
      have hlater := hearlier (i + 1) w hw
      rwa [show k + (i + 1) = k + 1 + i by omega] at hlater) (by
      rwa [List.length_cons, show k + (earlier.length + 1) = k + 1 + earlier.length by omega]
        at hitem)
    rw [hrest]
    rfl

/-- Of the children of a combination the first one that fails is reported. -/
theorem ofJsonWithin_combination {levels : ℕ} {path : Path} {fields : List (String × Json)}
    {kind : String} (hkind : kind ∈ ["union", "subtract", "intersect"])
    (htype : Json.field? fields "type" = some (.string kind))
    (hchildren : Json.field? fields "children" = some (.array (earlier ++ item :: later)))
    (hearlier : ∀ i w, earlier[i]? = some w →
      ∃ n, ofJsonWithin levels ((path.key "children").index i) w = .ok n)
    (hitem : ofJsonWithin levels ((path.key "children").index earlier.length) item = .error e) :
    ofJsonWithin (levels + 1) path (.object fields) = .error e := by
  have hitems : childrenOf ⟨fields, path⟩ (ofJsonWithin levels) = .error e := by
    have hfield : (PlacedObject.mk fields path).required "children" =
        .ok (.array (earlier ++ item :: later)) := PlacedObject.required_eq_ok_iff.mpr hchildren
    have hne : (earlier ++ item :: later).isEmpty = false := by simp
    rw [childrenOf, PlacedObject.get, hfield]
    show (if (earlier ++ item :: later).isEmpty then _ else _) = _
    rw [hne, if_neg Bool.false_ne_true]
    exact itemsFrom_eq_error 0 (by simpa using hearlier) (by simpa using hitem)
  have hread : (PlacedObject.mk fields path).get "type" (fun path v => v.expectString path) =
      .ok kind := (PlacedObject.get_eq_ok_iff Json.reads_expectString).mpr ⟨_, htype, .string kind⟩
  have hcombined (combination : Combination) :
      combinationOf ⟨fields, path⟩ combination (ofJsonWithin levels) = .error e := by
    rw [combinationOf, hitems]
    rfl
  rw [ofJsonWithin_object, hread]
  simp only [List.mem_cons, List.not_mem_nil, or_false] at hkind
  rcases hkind with rfl | rfl | rfl
  · exact hcombined .union
  · exact hcombined .subtract
  · exact hcombined .intersect

end Node

namespace Recipe

/-- **The first fault of a document is the one that is reported.** It is at one of the places that
are checked. What is checked before is as it should be, and whatever is put at places that are
checked later the report is the same. Of several children of a combination it is thus the first one
with a fault that is reported. -/
theorem first_fault_of_ofJson :
    (∀ v e, ofJson v = .error e →
      (∃ c ∈ checks v, c.path = e.path ∧ ¬ c.IsAccepted v) ∧
      (∀ b ∈ checks v, CheckedBefore v b.path e.path → b.IsAccepted v) ∧
      ∀ changes : List (Path × Json), (∀ change ∈ changes, CheckedBefore v e.path change.1) →
        ofJson (changed v changes) = .error e) ∧
    (∀ v, (places v).Nodup) ∧
    ∀ (levels : ℕ) (path : Path) (fields : List (String × Json)) (kind : String)
      (earlier later : List Json) (item : Json) (e : ValidationError),
      kind ∈ ["union", "subtract", "intersect"] →
      Json.field? fields "type" = some (.string kind) →
      Json.field? fields "children" = some (.array (earlier ++ item :: later)) →
      (∀ i w, earlier[i]? = some w →
        ∃ n, Node.ofJsonWithin levels ((path.key "children").index i) w = .ok n) →
      Node.ofJsonWithin levels ((path.key "children").index earlier.length) item = .error e →
      Node.ofJsonWithin (levels + 1) path (.object fields) = .error e := by
  refine ⟨fun v e h => ?_, nodup_places, fun _ _ _ _ _ _ _ _ => Node.ofJsonWithin_combination⟩
  obtain ⟨before, c, after, hchecks, hfirst⟩ := exists_failsFirst h
  have hpath : e.path = c.path := Check.path_of_error? hfirst.fails
  have hplaces : places v = before.map (·.path) ++ c.path :: after.map (·.path) := by
    rw [places, hchecks, List.map_append, List.map_cons]
  have hnodup := nodup_places v
  simp only [CheckedBefore, hpath]
  rw [hplaces] at hnodup ⊢
  refine ⟨⟨c, by rw [hchecks]; simp, rfl, fun h => ?_⟩, fun b hb hsub => ?_, fun changes hsub => ?_⟩
  · rw [← Check.error?_eq_none_iff, hfirst.fails] at h
    cases h
  · obtain ⟨b', hb', hpath⟩ := List.mem_map.mp (mem_of_sublist_before hnodup hsub)
    obtain rfl : b' = b := List.inj_on_of_nodup_map (nodup_places v)
      (by rw [hchecks]; exact List.mem_append_left _ hb') hb hpath
    exact Check.error?_eq_none_iff.mp (hfirst.succeeds b' hb')
  · exact (hfirst.changed hchecks fun change hchange =>
      mem_of_sublist_after hnodup (hsub change hchange)).ofJson_eq

/-- A union of three nodes with faults in the last two: a vector of two numbers is reported,
whatever is moved by it and whatever comes after it. -/
theorem first_fault_of_ofJson_offset : ∃ (v : Json) (e : ValidationError)
    (changes : List (Path × Json)) (box moved ball : Json),
    box = .object [("type", .string "cuboid"), ("size", .array [.ofNat 1, .ofNat 1, .ofNat 1])] ∧
    moved = .object [("type", .string "translate"), ("offset", .array [.ofNat 1, .ofNat 2]),
      ("child", box)] ∧
    ball = .object [("type", .string "sphere"), ("radius", .string "one")] ∧
    v = .object [("version", .ofNat 1), ("root", .object [("type", .string "union"),
      ("children", .array [box, moved, ball])])] ∧
    e = ⟨((Path.root.key "children").index 1).key "offset", .wrongArity 2⟩ ∧
    changes = [(((Path.root.key "children").index 1).key "child", .null),
      ((Path.root.key "children").index 2, .bool true)] ∧
    Node.ofJsonWithin maxLevels .root (.object [("type", .string "union"),
      ("children", .array [box, moved, .null, .null])]) = .error e ∧
    ofJson v = .error e ∧ (∃ c ∈ checks v, c.path = e.path ∧ ¬ c.IsAccepted v) ∧
    (∀ b ∈ checks v, CheckedBefore v b.path e.path → b.IsAccepted v) ∧
    ofJson (changed v changes) = .error e := by
  have hreport (v : Json) (e : ValidationError) (changes : List (Path × Json))
      (h : ofJson v = .error e) (hchanges : ∀ change ∈ changes, CheckedBefore v e.path change.1) :
      ofJson v = .error e ∧ (∃ c ∈ checks v, c.path = e.path ∧ ¬ c.IsAccepted v) ∧
      (∀ b ∈ checks v, CheckedBefore v b.path e.path → b.IsAccepted v) ∧
      ofJson (changed v changes) = .error e := by
    obtain ⟨hfault, hbefore, hafter⟩ := first_fault_of_ofJson.1 v e h
    exact ⟨h, hfault, hbefore, hafter changes hchanges⟩
  obtain ⟨-, -, hcombination⟩ := first_fault_of_ofJson
  refine ⟨_, _, _, _, _, _, rfl, rfl, rfl, rfl, rfl, rfl, ?combination,
    hreport _ _ _ rfl (by decide +kernel)⟩
  case combination =>
    refine hcombination 59 .root _ "union" [_] [.null, .null] _ _ (by decide) rfl rfl ?_ rfl
    intro i w hw
    cases i with
    | zero =>
      cases hw
      exact ⟨_, rfl⟩
    | succ i => cases hw

end Recipe

end Solids
