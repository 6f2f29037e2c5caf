import Solids.Kernel
import Solids.Proofs.LeastBox
import Solids.Proofs.RoundShape
/-!
# Solids.Proofs.FreshBox

**Carried boxes are never stale.** A mesh may carry its bounding box, and boolean operations decide
by it whether there is anything to cut. Here is a session with any number of meshes: whatever is
done, in whatever order, a box that a mesh carries is that of the corners the mesh has then.

Main definitions:

* `Mesh.IsFresh` — what a mesh carries is right;
* `Action` — what can be done in a session, and `Action.perform` — what becomes of the meshes.

Main statements:

* `Action.isFresh_perform` — one action keeps all meshes right;
* `Action.carried_boxes_are_least` — so does every session, and forgetting the box makes up for any
  change of the faces; and the box of finite points is the least one.
-/

namespace Solids

namespace Mesh

variable {K : Type} [Scalar K] {m a b : Mesh K}

/-- The mesh carries no box, or that of its corners. -/
def IsFresh (m : Mesh K) : Prop :=
  m.box? = none ∨ m.box? = some (BoundingBox.ofPoints m.positions)

theorem isFresh_ofPolygons (polygons : List (Polygon K)) : (ofPolygons polygons).IsFresh := .inl rfl

theorem isFresh_invalidate (m : Mesh K) : m.invalidate.IsFresh := .inl rfl

/-- The box of a mesh is that of its corners, whether it is carried or not. -/
theorem IsFresh.boundingBox_eq (h : m.IsFresh) :
    m.boundingBox = BoundingBox.ofPoints m.positions := by
  rcases h with h | h
  · rw [boundingBox, h, Option.getD_none]
  · rw [boundingBox, h, Option.getD_some]

theorem IsFresh.measured (h : m.IsFresh) : m.measured.IsFresh :=
  .inr (congrArg some h.boundingBox_eq)

theorem IsFresh.compared (ha : a.IsFresh) (hb : b.IsFresh) :
    (compared a b).1.IsFresh ∧ (compared a b).2.IsFresh := by
  unfold Mesh.compared
  split
  · exact ⟨ha, hb⟩
  · exact ⟨ha.measured, hb.measured⟩

/-- A mesh made of the faces of a tree carries no box. -/
theorem isFresh_of_trees {s : Settings K} {joined : Tree K → Tree K → Option (Tree K)}
    {faces : Tree K → List (Polygon K)}
    (h : ((a.tree? s).bind fun ta => (b.tree? s).bind fun tb =>
      (joined ta tb).bind fun t => some (ofPolygons (faces t))) = some m) : m.IsFresh := by
  obtain ⟨ta, -, h⟩ := Option.bind_eq_some_iff.mp h
  obtain ⟨tb, -, h⟩ := Option.bind_eq_some_iff.mp h
  obtain ⟨t, -, h⟩ := Option.bind_eq_some_iff.mp h
  cases h
  exact isFresh_ofPolygons (faces t)

/-- The result of a boolean operation is an operand, which carries what it did, or is made anew. -/
theorem IsFresh.combineWith {s : Settings K} {c : Combination} (ha : a.IsFresh) (hb : b.IsFresh)
    (h : combineWith s c a b = some m) : m.IsFresh := by
  cases c with
  | union =>
    simp only [Mesh.combineWith, union] at h
    split at h
    · cases h
      exact hb
    · split at h
      · cases h
        exact isFresh_ofPolygons _
      · exact isFresh_of_trees h
  | subtract =>
    simp only [Mesh.combineWith, difference] at h
    split at h
    · cases h
      exact (ha.compared hb).1
    · exact isFresh_of_trees h
  | intersect =>
    simp only [Mesh.combineWith, intersection] at h
    split at h
    · cases h
      exact isFresh_ofPolygons _
    · exact isFresh_of_trees h

theorem IsFresh.combineAll {s : Settings K} {c : Combination} {rest : List (Mesh K)}
    (ha : a.IsFresh) (hrest : ∀ b ∈ rest, b.IsFresh) (h : combineAll s c a rest = some m) :
    m.IsFresh := by
  induction rest generalizing a with
  | nil =>
    cases h
    exact ha
  | cons b rest ih =>
    obtain ⟨next, hnext, h⟩ := Option.bind_eq_some_iff.mp h
    exact ih (ha.combineWith (hrest b (.head rest)) hnext) (fun d hd => hrest d (.tail b hd)) h

theorem isFresh_combineMeshes {s : Settings K} {c : Combination} {operands : List (Mesh K)}
    (hoperands : ∀ b ∈ operands, b.IsFresh)
    (h : (Kernel.combineMeshes s c operands).run = some (.ok m)) : m.IsFresh := by
  cases operands with
  | nil => cases h
  | cons a rest =>
    obtain ⟨made, hmade, h⟩ := Option.map_eq_some_iff.mp h
    cases h
    exact (hoperands a (.head rest)).combineAll (fun b hb => hoperands b (.tail a hb)) hmade

/-- What is moved has new faces, and its corners have been looked at. -/
theorem exists_of_transform_eq_ok {matrix : Mat4 K} (h : a.transform matrix = .ok m) :
    ∃ moved : List (Polygon K), m = ofPolygons moved ∧ ∀ q ∈ moved, q.isFinite = true := by
  simp only [transform] at h
  split at h
  · cases h
  · split at h
    · cases h
    · split at h
      · next hfinite =>
        cases h
        exact ⟨_, rfl, List.all_eq_true.mp hfinite⟩
      · cases h

theorem isFresh_transform {matrix : Mat4 K} (h : a.transform matrix = .ok m) : m.IsFresh := by
  obtain ⟨moved, rfl, -⟩ := exists_of_transform_eq_ok h
  exact isFresh_ofPolygons moved

/-- A box that is made has no faces or six. -/
theorem eq_of_cuboid_eq_ok {size : Vec3 K} {center : Option (Vec3 K)}
    (h : cuboid size center = .ok m) :
    m = empty ∨ m = ofPolygons (cuboidFaces (center.getD 0 - size.scale Scalar.half) size) := by
  obtain ⟨_, -, h⟩ := bind_eq_ok_iff.mp h
  simp only at h
  split at h
  · cases h
  · obtain ⟨o, ho, h⟩ := bind_eq_ok_iff.mp h
    obtain ⟨-, rfl⟩ := resolveCenter_ok_iff.mp ho
    split at h
    · exact .inl (Except.ok.inj h).symm
    · exact .inr (Except.ok.inj h).symm

theorem isFresh_ofShape [Trig K] {shape : Shape K} (h : ofShape shape = .ok m) : m.IsFresh := by
  cases shape with
  | cuboid size center =>
    rcases eq_of_cuboid_eq_ok h with rfl | rfl
    · exact isFresh_ofPolygons []
    · exact isFresh_ofPolygons _
  | sphere radius center segments =>
    obtain ⟨-, rfl⟩ := (sphere_ok_iff rfl).mp h
    exact isFresh_ofPolygons _
  | cylinder height radius center segments =>
    obtain ⟨-, rfl⟩ := (cylinder_ok_iff rfl).mp h
    exact isFresh_ofPolygons _

end Mesh

/-! ### Sessions -/

/-- What can be done with the meshes of a session. Meshes go by their numbers; a new one is put
after all the others. -/
inductive Action (K : Type) where
  /-- Make a mesh without faces. -/
  | new
  /-- Make a mesh of faces. -/
  | ofPolygons (polygons : List (Polygon K))
  /-- Make a shape. -/
  | make (shape : Shape K)
  /-- Copy a mesh, and the box that it carries. -/
  | copy (i : ℕ)
  /-- Combine two meshes, which may be one. -/
  | combine (combination : Combination) (i j : ℕ)
  /-- Have the modeller combine any number of meshes. -/
  | combineAll (combination : Combination) (operands : List ℕ)
  /-- Exchange inside and outside. -/
  | inverse (i : ℕ)
  /-- Move by a matrix. -/
  | transform (i : ℕ) (matrix : Mat4 K)
  /-- Move by a motion with its angles in radians. -/
  | move (i : ℕ) (motion : Motion K)
  /-- Ask for the bounding box. -/
  | measure (i : ℕ)
  /-- Forget the bounding box. -/
  | invalidate (i : ℕ)
  /-- Exchange the faces for any others, and then forget the bounding box. -/
  | edit (i : ℕ) (polygons : List (Polygon K))

namespace Action

section Change

variable {K : Type} [Scalar K] {meshes : List (Mesh K)}

/-- What an action does to the meshes there are. Two that are combined carry their boxes
afterwards, if these were compared. -/
def change (meshes : List (Mesh K)) : Action K → List (Mesh K)
  | .combine _ i j =>
    match meshes[i]?, meshes[j]? with
    | some a, some b => (meshes.set i (Mesh.compared a b).1).set j (Mesh.compared a b).2
    | _, _ => meshes
  | .measure i => meshes.modify i Mesh.measured
  | .invalidate i => meshes.modify i Mesh.invalidate
  | .edit i polygons => meshes.modify i fun m => { m with polygons }.invalidate
  | _ => meshes

theorem isFresh_modify (h : ∀ m ∈ meshes, m.IsFresh) {f : Mesh K → Mesh K}
    (hf : ∀ m : Mesh K, m.IsFresh → (f m).IsFresh) (i : ℕ) :
    ∀ m ∈ meshes.modify i f, m.IsFresh := by
  intro m hm
  obtain ⟨j, hj⟩ := List.mem_iff_getElem?.mp hm
  rw [List.getElem?_modify] at hj
  obtain ⟨a, ha, rfl⟩ := Option.map_eq_some_iff.mp hj
  have ha : a.IsFresh := h a (List.mem_of_getElem? ha)
  split
  · exact hf a ha
  · exact ha

/-- What the meshes there are carry stays right. -/
theorem isFresh_change (h : ∀ m ∈ meshes, m.IsFresh) (action : Action K) :
    ∀ m ∈ action.change meshes, m.IsFresh := by
  cases action with
  | combine c i j =>
    intro m hm
    simp only [change] at hm
    split at hm
    · next a b ha hb =>
      obtain ⟨ha, hb⟩ := (h a (List.mem_of_getElem? ha)).compared (h b (List.mem_of_getElem? hb))
      rcases List.mem_or_eq_of_mem_set hm with hm | rfl
      · rcases List.mem_or_eq_of_mem_set hm with hm | rfl
        · exact h m hm
        · exact ha
      · exact hb
    · exact h m hm
  | measure i => exact isFresh_modify h (fun _ hm => hm.measured) i
  | invalidate i => exact isFresh_modify h (fun m _ => m.isFresh_invalidate) i
  | edit i polygons => exact isFresh_modify h (fun _ _ => Mesh.isFresh_invalidate _) i
  | _ => exact h

end Change

variable {K : Type} [Scalar K] [Trig K]

/-- The mesh that an action makes of those there are, if it makes one. -/
def made? (s : Settings K) (meshes : List (Mesh K)) : Action K → Option (Mesh K)
  | .new => some Mesh.empty
  | .ofPolygons polygons => some (Mesh.ofPolygons polygons)
  | .make shape => (Mesh.ofShape shape).toOption
  | .copy i => meshes[i]?
  | .combine c i j => meshes[i]?.bind fun a => meshes[j]?.bind fun b => Mesh.combineWith s c a b
  | .combineAll c operands =>
    (Kernel.combineMeshes s c (operands.filterMap (meshes[·]?))).run.bind Except.toOption
  | .inverse i => meshes[i]?.map Mesh.inverse
  | .transform i matrix => meshes[i]?.bind fun m => (m.transform matrix).toOption
  | .move i motion => meshes[i]?.bind fun m => (m.move motion).toOption
  | .measure _ | .invalidate _ | .edit _ _ => none

/-- The meshes after an action. -/
def perform (s : Settings K) (meshes : List (Mesh K)) (action : Action K) : List (Mesh K) :=
  action.change meshes ++ (action.made? s meshes).toList

/-- The meshes after some actions, when there were none before. -/
def run (s : Settings K) (actions : List (Action K)) : List (Mesh K) :=
  actions.foldl (perform s) []

variable {s : Settings K} {meshes : List (Mesh K)} {action : Action K} {m : Mesh K}

theorem eq_ok_of_toOption {ε α : Type} {x : Except ε α} {a : α} (h : x.toOption = some a) :
    x = .ok a := by
  cases x with
  | error e => cases h
  | ok b =>
    cases h
    rfl

/-- What a new mesh carries is right. -/
theorem isFresh_made? (h : ∀ m ∈ meshes, m.IsFresh) (hm : action.made? s meshes = some m) :
    m.IsFresh := by
  have hget : ∀ {i : ℕ} {a : Mesh K}, meshes[i]? = some a → a.IsFresh :=
    fun hi => h _ (List.mem_of_getElem? hi)
  cases action with
  | new =>
    cases hm
    exact Mesh.isFresh_ofPolygons []
  | ofPolygons polygons =>
    cases hm
    exact Mesh.isFresh_ofPolygons polygons
  | make shape => exact Mesh.isFresh_ofShape (eq_ok_of_toOption hm)
  | copy i => exact hget hm
  | combine c i j =>
    obtain ⟨a, ha, hm⟩ := Option.bind_eq_some_iff.mp hm
    obtain ⟨b, hb, hm⟩ := Option.bind_eq_some_iff.mp hm
    exact (hget ha).combineWith (hget hb) hm
  | combineAll c operands =>
    obtain ⟨answer, hanswer, hm⟩ := Option.bind_eq_some_iff.mp hm
    obtain rfl := eq_ok_of_toOption hm
    refine Mesh.isFresh_combineMeshes ?_ hanswer
    intro a ha
    obtain ⟨i, -, hi⟩ := List.mem_filterMap.mp ha
    exact hget hi
  | inverse i =>
    obtain ⟨a, -, rfl⟩ := Option.map_eq_some_iff.mp hm
    exact Mesh.isFresh_ofPolygons _
  | transform i matrix =>
    obtain ⟨a, -, hm⟩ := Option.bind_eq_some_iff.mp hm
    exact Mesh.isFresh_transform (eq_ok_of_toOption hm)
  | move i motion =>
    obtain ⟨a, -, hm⟩ := Option.bind_eq_some_iff.mp hm
    exact Mesh.isFresh_transform (eq_ok_of_toOption hm)
  | measure i => cases hm
  | invalidate i => cases hm
  | edit i polygons => cases hm

/-- **One action keeps the carried boxes right.** -/
theorem isFresh_perform (h : ∀ m ∈ meshes, m.IsFresh) (action : Action K) :
    ∀ m ∈ perform s meshes action, m.IsFresh := by
  intro m hm
  rcases List.mem_append.mp hm with hm | hm
  · exact isFresh_change h action m hm
  · exact isFresh_made? h (Option.mem_toList.mp hm)

theorem isFresh_foldl_perform (h : ∀ m ∈ meshes, m.IsFresh) (actions : List (Action K)) :
    ∀ m ∈ actions.foldl (perform s) meshes, m.IsFresh := by
  induction actions generalizing meshes with
  | nil => exact h
  | cons action actions ih => exact ih (isFresh_perform h action)

/-- **Carried boxes are never stale**, whatever is done in a session, and forgetting the box makes
up for any change of the faces. And the box of finite points is the least one that holds them. -/
theorem carried_boxes_are_least :
    (∀ (s : Settings Double) (actions : List (Action Double)), ∀ m ∈ run s actions,
      m.IsFresh) ∧
    (∀ (m : Mesh Double) (polygons : List (Polygon Double)),
      { m with polygons }.invalidate.IsFresh) ∧
    ∀ points : List (Vec3 Double), points ≠ [] →
      (∀ p ∈ points, ∀ x ∈ p.toList, x.isFinite = true) →
      (∀ p ∈ points, (BoundingBox.ofPoints points).Holds p) ∧
      ∀ b : BoundingBox Double, (∀ p ∈ points, b.Holds p) →
        ∀ p, (BoundingBox.ofPoints points).Holds p → b.Holds p := by
  refine ⟨fun s actions => isFresh_foldl_perform (by simp) actions,
    fun m polygons => Mesh.isFresh_invalidate _, ?_⟩
  intro points hne hfinite
  exact ⟨fun p hp => BoundingBox.holds_ofPoints hfinite hp,
    fun b hb p hp => hp.of_ofPoints hne hfinite hb⟩

/-- A triangle is measured, and a copy of it, which carries the box then, is turned inside out by
hand. Zeros of both signs are among the coordinates. -/
theorem carried_boxes_are_least_triangle :
    ∃ (points : List (Vec3 Double)) (triangle : Polygon Double) (measured edited : Mesh Double),
      measured.positions = points ∧ measured.box? = some (.ofPoints points) ∧
      run .default [.ofPolygons [triangle], .measure 0, .copy 0, .edit 1 [triangle.flip]]
        = [measured, edited] ∧
      measured.IsFresh ∧ edited.IsFresh ∧ points ≠ [] ∧
      (∀ p ∈ points, ∀ x ∈ p.toList, x.isFinite = true) ∧
      (∀ p ∈ points, (BoundingBox.ofPoints points).Holds p) ∧
      ∀ b : BoundingBox Double, (∀ p ∈ points, b.Holds p) →
        ∀ p, (BoundingBox.ofPoints points).Holds p → b.Holds p := by
  set points : List (Vec3 Double) := [⟨0, 0, -0⟩, ⟨1, -0, 0⟩, ⟨0, 1, 0⟩] with hpoints
  set triangle : Polygon Double := .ofVertices (points.map fun p => ⟨p, Vec3.unitZ⟩)
  obtain ⟨hfresh, -, hleast⟩ := carried_boxes_are_least
  have hrun : run .default [.ofPolygons [triangle], .measure 0, .copy 0, .edit 1 [triangle.flip]]
      = [(Mesh.ofPolygons [triangle]).measured, Mesh.ofPolygons [triangle.flip]] := rfl
  have hfinite : ∀ p ∈ points, ∀ x ∈ p.toList, x.isFinite = true := by
    rw [hpoints]
    decide +kernel
  have hne : points ≠ [] := List.cons_ne_nil _ _
  have hpositions : (Mesh.ofPolygons [triangle]).positions = points := rfl
  have hbox : (Mesh.ofPolygons [triangle]).boundingBox = .ofPoints points := by
    rw [(Mesh.isFresh_ofPolygons _).boundingBox_eq, hpositions]
  have hboth := hfresh .default
    [.ofPolygons [triangle], .measure 0, .copy 0, .edit 1 [triangle.flip]]
  rw [hrun, List.forall_mem_cons, List.forall_mem_singleton] at hboth
  exact ⟨points, triangle, (Mesh.ofPolygons [triangle]).measured, Mesh.ofPolygons [triangle.flip],
    hpositions, congrArg some hbox, hrun, hboth.1, hboth.2, hne, hfinite, hleast points hne hfinite⟩

end Action

end Solids
