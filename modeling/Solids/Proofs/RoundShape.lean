import Solids.Proofs.Grid
import Solids.Proofs.Steps
import Solids.Mesh.Shape
/-!
# Solids.Proofs.RoundShape

**Balls and cylinders as grids.** The faces of both are the cells of a grid of slices and layers. A
cylinder has three layers: the sectors of its top, its sides, and the sectors of its bottom.

This is so with numbers of any kind. Which corners of the grid are the same depends on the numbers.

Main definitions:

* `Shape.slices`, `Shape.layers` — how large the grid is;
* `Shape.gridPoint` — the corner at a place of the grid;
* `Mesh.outlines` — the positions of the corners, face by face.

Main statement: `Mesh.arranges_of_ofShape`.
-/

namespace Solids

variable {K : Type} [Scalar K]

namespace Shape

/-- The center, which is the origin if the shape does not say. -/
def center : Shape K → Vec3 K
  | .cuboid _ center => center.getD 0
  | .sphere _ center _ => center.getD 0
  | .cylinder _ _ center _ => center.getD 0

omit [Scalar K] in
/-- The number of slices of a round shape. -/
def slices (s : Shape K) : ℕ := (s.segments?.getD Mesh.defaultSegments).toNat

omit [Scalar K] in
/-- The number of layers of a round shape. -/
def layers (s : Shape K) : ℕ :=
  match s with
  | .sphere .. => Mesh.sphereLayers s.slices
  | _ => 3

variable [Trig K]

/-- The point of a cylinder's rim where slice `i` begins, at the height `z`. -/
def rimPoint (center : Vec3 K) (radius z : K) (slices i : ℕ) : Vec3 K :=
  ⟨center.x + radius * Trig.cos (Mesh.sliceAngle slices i : K),
    center.y + radius * Trig.sin (Mesh.sliceAngle slices i : K), z⟩

/-- The corner of a round shape where slice `i` and layer `j` begin. -/
def gridPoint : Shape K → ℕ → ℕ → Vec3 K
  | .cuboid _ center, _, _ => center.getD 0
  | .sphere radius center segments, i, j =>
    let s : Shape K := .sphere radius center segments
    (Mesh.sphereVertex s.center radius s.slices s.layers i j).pos
  | .cylinder height radius center segments, i, j =>
    let s : Shape K := .cylinder height radius center segments
    match j with
    | 0 => ⟨s.center.x, s.center.y, s.center.z + height * Scalar.half⟩
    | 1 => rimPoint s.center radius (s.center.z + height * Scalar.half) s.slices i
    | 2 => rimPoint s.center radius (s.center.z - height * Scalar.half) s.slices i
    | _ => ⟨s.center.x, s.center.y, s.center.z - height * Scalar.half⟩

end Shape

namespace Mesh

omit [Scalar K] in
/-- The positions of the corners, face by face. -/
def outlines (m : Mesh K) : List (List (Vec3 K)) :=
  m.polygons.map fun q => q.vertices.map Vertex.pos

/-! ### Which round shapes are made -/

theorem resolveCenter_ok_iff {center : Option (Vec3 K)} {o : Vec3 K} :
    resolveCenter center = .ok o ↔
      requireFinite .center (center.getD 0) = .ok () ∧ o = center.getD 0 := by
  constructor
  · intro h
    obtain ⟨_, hfinite, h⟩ := bind_eq_ok_iff.mp h
    cases h
    exact ⟨hfinite, rfl⟩
  · intro ⟨hfinite, ho⟩
    rw [resolveCenter, hfinite, ho]
    rfl

omit [Scalar K] in
theorem resolveSegments_ok_iff {segments : Option UInt32} {n : UInt32} :
    resolveSegments (K := K) segments = .ok n ↔
      n = segments.getD defaultSegments ∧ 4 ≤ n.toNat := by
  have hfew : ∀ n : UInt32, ¬ n < fewestSegments ↔ 4 ≤ n.toNat := fun n =>
    UInt32.not_lt.trans UInt32.le_iff_toNat_le
  rw [resolveSegments]
  by_cases h : segments.getD defaultSegments < fewestSegments
  · rw [if_pos h]
    refine iff_of_false nofun ?_
    intro ⟨hn, hfour⟩
    subst hn
    exact (hfew _).mpr hfour h
  · rw [if_neg h, Except.ok.injEq, eq_comm, iff_self_and]
    intro hn
    rw [hn]
    exact (hfew _).mp h

omit [Scalar K] in
theorem requireCount_ok_iff {n : UInt32} {count : ℕ} :
    requireCount (K := K) n count = .ok () ↔ count ≤ polygonLimit := by
  rw [requireCount]
  by_cases h : count ≤ polygonLimit <;> simp [h]

variable {s : Shape K} {m : Mesh K} {height radius : K} {center : Option (Vec3 K)}
  {segments : Option UInt32}

/-- What a round shape has to pass after its lengths have, and what is made then. -/
theorem checkRound_ok_iff (faces : ℕ → ℕ) (make : Vec3 K → ℕ → Mesh K) :
    (resolveCenter center >>= fun o => resolveSegments segments >>= fun n =>
        requireCount n (faces n.toNat) >>= fun _ => pure (make o n.toNat) :
      Except (KernelError K) (Mesh K)) = .ok m ↔
      (requireFinite .center (center.getD 0) = .ok () ∧
        4 ≤ (segments.getD defaultSegments).toNat ∧
        faces (segments.getD defaultSegments).toNat ≤ polygonLimit) ∧
      m = make (center.getD 0) (segments.getD defaultSegments).toNat := by
  simp only [bind_eq_ok_iff, return_eq_ok_iff, resolveCenter_ok_iff, resolveSegments_ok_iff]
  constructor
  · rintro ⟨_, ⟨hfinite, rfl⟩, _, ⟨rfl, hfour⟩, _, hcount, hm⟩
    exact ⟨⟨hfinite, hfour, requireCount_ok_iff.mp hcount⟩, hm.symm⟩
  · rintro ⟨⟨hfinite, hfour, hcount⟩, hm⟩
    exact ⟨_, ⟨hfinite, rfl⟩, _, ⟨rfl, hfour⟩, (), requireCount_ok_iff.mpr hcount, hm.symm⟩

variable [Trig K]

/-- What a ball has to pass, and what is made then. -/
theorem sphere_ok_iff (hs : s = .sphere radius center segments) :
    sphere radius center segments = .ok m ↔
      (requirePositive .radius radius = .ok () ∧ requireFinite .center s.center = .ok () ∧
        4 ≤ s.slices ∧ s.slices * s.layers ≤ polygonLimit) ∧
      m = ofPolygons ((List.range s.slices).flatMap fun i =>
        (List.range s.layers).map fun j => sphereFace s.center radius s.slices s.layers i j) := by
  subst hs
  refine check_bind_eq_ok_iff.trans ?_
  rw [and_assoc]
  exact and_congr_right fun _ => checkRound_ok_iff (fun n => n * sphereLayers n) fun o n =>
    ofPolygons ((List.range n).flatMap fun i =>
      (List.range (sphereLayers n)).map fun j => sphereFace o radius n (sphereLayers n) i j)

/-- What a cylinder has to pass, and what is made then. -/
theorem cylinder_ok_iff (hs : s = .cylinder height radius center segments) :
    cylinder height radius center segments = .ok m ↔
      (requirePositive .height height = .ok () ∧ requirePositive .radius radius = .ok () ∧
        requireFinite .center s.center = .ok () ∧ 4 ≤ s.slices ∧
        s.slices * s.layers ≤ polygonLimit) ∧
      m = ofPolygons ((List.range s.slices).flatMap (cylinderFaces s.center radius
        (s.center.z - height * Scalar.half) (s.center.z + height * Scalar.half) s.slices)) := by
  subst hs
  refine check_bind_eq_ok_iff.trans ?_
  rw [and_assoc]
  refine and_congr_right fun _ => check_bind_eq_ok_iff.trans ?_
  rw [and_assoc]
  exact and_congr_right fun _ => checkRound_ok_iff (fun n => n * 3) fun o n =>
    ofPolygons ((List.range n).flatMap (cylinderFaces o radius (o.z - height * Scalar.half)
      (o.z + height * Scalar.half) n))

/-! ### Faces in a grid -/

theorem arranges_sphere (hs : s = .sphere radius center segments)
    (h : sphere radius center segments = .ok m) :
    4 ≤ s.slices ∧ Grid.Arranges s.gridPoint s.slices s.layers m.outlines := by
  obtain ⟨⟨-, -, hfour, -⟩, rfl⟩ := (sphere_ok_iff hs).mp h
  refine ⟨hfour, fun c => Grid.cell s.gridPoint s.layers c.1 c.2, fun c => .refl _, .of_eq ?_⟩
  subst hs
  change _ = ((List.range _).flatMap fun i => (List.range _).map (Prod.mk i)).map _
  simp only [outlines, ofPolygons_polygons, List.map_flatMap, List.map_map]
  refine congrArg (List.flatMap · _) (funext fun i => List.map_congr_left fun j _ => ?_)
  exact Grid.cell_map Vertex.pos (sphereVertex _ radius _ _) _ i j

theorem arranges_cylinder (hs : s = .cylinder height radius center segments)
    (h : cylinder height radius center segments = .ok m) :
    4 ≤ s.slices ∧ Grid.Arranges s.gridPoint s.slices s.layers m.outlines := by
  obtain ⟨⟨-, -, -, hfour, -⟩, rfl⟩ := (cylinder_ok_iff hs).mp h
  refine ⟨hfour, fun c => if c.2 = 0 then
    [s.gridPoint c.1 0, s.gridPoint c.1 1, s.gridPoint (c.1 + 1) 1]
    else Grid.cell s.gridPoint s.layers c.1 c.2, fun c => ?_, ?_⟩
  · have hlayers : s.layers = 3 := by rw [hs]; rfl
    dsimp only
    by_cases hfirst : c.2 = 0
    · rw [if_pos hfirst, hfirst, hlayers, Grid.cell_first (by omega)]
      exact List.isRotated_append (l := [s.gridPoint c.1 0])
    · rw [if_neg hfirst]
  · subst hs
    change (List.map _ _).Perm
      (((List.range _).flatMap fun i => (List.range 3).map (Prod.mk i)).map _)
    simp only [ofPolygons_polygons, List.map_flatMap, List.map_map]
    refine List.Perm.flatMap_left _ fun i _ => ?_
    -- the faces of a slice are listed from the bottom up
    exact List.reverse_perm [_, _, _]

/-- The faces of a round shape are the cells of its grid. -/
theorem arranges_of_ofShape (hround : s.service ≠ .cuboid) (h : ofShape s = .ok m) :
    (4 ≤ s.slices ∧ 2 ≤ s.layers) ∧ Grid.Arranges s.gridPoint s.slices s.layers m.outlines := by
  cases s with
  | cuboid size center => exact absurd rfl hround
  | sphere radius center segments =>
    obtain ⟨hslices, harranges⟩ := arranges_sphere rfl h
    exact ⟨⟨hslices, le_max_right _ _⟩, harranges⟩
  | cylinder height radius center segments =>
    obtain ⟨hslices, harranges⟩ := arranges_cylinder rfl h
    exact ⟨⟨hslices, by simp [Shape.layers]⟩, harranges⟩

/-! ### Over the reals -/

section Real

variable {m : Mesh ℝ}

theorem requirePositive_real {parameter : Parameter} {value : ℝ} :
    requirePositive parameter value = .ok () ↔ 0 < value := by
  by_cases h : 0 < value <;> simp [requirePositive, h]

end Real

end Mesh

end Solids
