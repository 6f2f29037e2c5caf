import Solids.Proofs.Cylinder
/-!
# Solids.Proofs.Ending

**Which shapes have trees.** Every face of a shape lies in one plane, but a face that is
too small carries the ground plane in place of its own. A shape with large faces only has
a tree, and all operations on such shapes end. A shape with small faces only has one
if it is within the tolerance of the ground, and otherwise building its tree goes on for
ever.

Main statement: `Mesh.ends_iff_of_ofShape`.
-/

namespace Solids.Mesh

variable {eps : ℝ} {shape : Shape ℝ} {a b m : Mesh ℝ} {levels : ℕ}

/-! ### Large faces -/

/-- The large faces of a shape fit their planes. -/
theorem fits_of_isLarge (heps : 0 ≤ eps) (h : ofShape shape = .ok m)
    (hlarge : ∀ q ∈ m.polygons, q.IsLarge) : ∀ q ∈ m.polygons, q.Fits eps :=
  fun q hq => ((isFace_of_ofShape h q hq).isFlat (hlarge q hq)).fits heps

/-- If all faces are large, no more levels are needed than there are faces. -/
theorem isSome_tree?_of_isLarge (heps : Scalar.epsilon ≤ eps) (h : ofShape shape = .ok m)
    (hlarge : ∀ q ∈ m.polygons, q.IsLarge) (hlevels : m.polygons.length ≤ levels) :
    (m.tree? ⟨eps, levels⟩).isSome := by
  by_cases hne : m.polygons = []
  · rw [tree?, hne]
    cases levels <;> rfl
  · have hfits := fits_of_isLarge (Scalar.epsilon_pos.le.trans heps) h hlarge
    obtain ⟨t, ht, -⟩ := exists_tree? (s := ⟨eps, levels⟩) heps hne hfits hlevels
    exact Option.isSome_iff_exists.mpr ⟨t, ht⟩

/-- If all faces of two shapes are large, all operations on them end. -/
theorem isSome_combineWith_of_isLarge {shape' : Shape ℝ} (heps : Scalar.epsilon ≤ eps)
    (ha : ofShape shape = .ok a) (hb : ofShape shape' = .ok b)
    (hlarge : ∀ q ∈ a.polygons ++ b.polygons, q.IsLarge)
    (hlevels : a.polygons.length + b.polygons.length ≤ levels) (c : Combination) :
    (combineWith ⟨eps, levels⟩ c a b).isSome := by
  have hpos := Scalar.epsilon_pos.le.trans heps
  cases hmeets : meets a b with
  | false => exact isSome_combineWith_of_not_meets hmeets c
  | true =>
    obtain ⟨hnea, hneb⟩ := ne_nil_of_meets hmeets
    have hfitsA := fits_of_isLarge hpos ha fun q hq => hlarge q (List.mem_append_left _ hq)
    have hfitsB := fits_of_isLarge hpos hb fun q hq => hlarge q (List.mem_append_right _ hq)
    have hlevelsA : a.polygons.length ≤ levels := by omega
    have hlevelsB : b.polygons.length ≤ levels := by omega
    obtain ⟨ta, hta, hoperandA⟩ := exists_tree? (s := ⟨eps, levels⟩) heps hnea hfitsA hlevelsA
    obtain ⟨tb, htb, hoperandB⟩ := exists_tree? (s := ⟨eps, levels⟩) heps hneb hfitsB hlevelsB
    obtain ⟨hkeptA, hkeptB⟩ := hoperandA.keptBy heps hoperandB c
    obtain ⟨joined, hjoined⟩ := hkeptA.exists_insert heps hkeptB hlevels
    exact (isSome_combineWith hmeets hta htb c).mpr (Option.isSome_iff_exists.mpr ⟨joined, hjoined⟩)

/-! ### Small faces -/

/-- If no face is large, all of them must be on the ground. -/
theorem hasTree_iff_of_not_isLarge (heps : Scalar.epsilon ≤ eps) (h : ofShape shape = .ok m)
    (hsmall : ∀ q ∈ m.polygons, ¬ q.IsLarge) :
    m.HasTree eps ↔ ∀ q ∈ m.polygons, Plane.ground.sideOfPolygon eps q = .on := by
  rw [hasTree_iff heps, ← Tree.exists_levels_iff heps]
  exact Tree.exists_levels_iff_of_plane_eq heps fun q hq =>
    (isFace_of_ofShape h q hq).plane_eq_ground (hsmall q hq)

/-- A box has a tree if it has a large face or is within the tolerance of the ground. -/
theorem hasTree_cuboid_iff {size : Vec3 ℝ} {center : Option (Vec3 ℝ)}
    (heps : Scalar.epsilon ≤ eps) (hsquare : Scalar.epsilon ≤ 2 * (eps * eps))
    (h : cuboid size center = .ok m) : m.HasTree eps ↔
      (∃ q ∈ m.polygons, q.IsLarge) ∨ ∀ q ∈ m.polygons, Plane.ground.sideOfPolygon eps q = .on := by
  obtain ⟨⟨hx, hy, hz⟩, rfl⟩ := cuboid_eq_ok.mp h
  rw [hasTree_iff heps, ← Tree.exists_levels_iff heps]
  split
  · exact iff_of_true ⟨0, by simp [empty]⟩ (.inr (by simp [empty]))
  · next hzero =>
    simp only [not_or] at hzero
    exact exists_levels_cuboidFaces heps hsquare
      ⟨lt_of_le_of_ne hx (Ne.symm hzero.1), lt_of_le_of_ne hy (Ne.symm hzero.2.1),
        lt_of_le_of_ne hz (Ne.symm hzero.2.2)⟩

/-- A box or a cylinder has a tree if it has a large face or is within the tolerance of the
ground. -/
theorem hasTree_iff_of_ofShape (h : ofShape shape = .ok m)
    (hshape : ∀ radius center segments, shape ≠ .sphere radius center segments) :
    m.HasTree tolerance ↔ (∃ q ∈ m.polygons, q.IsLarge) ∨
      ∀ q ∈ m.polygons, Plane.ground.sideOfPolygon tolerance q = .on := by
  cases shape with
  | cuboid size center =>
    exact hasTree_cuboid_iff epsilon_le_tolerance epsilon_le_two_mul_tolerance h
  | sphere radius center segments => exact absurd rfl (hshape radius center segments)
  | cylinder height radius center segments =>
    obtain ⟨c, hc, -⟩ := exists_column h
    rw [hasTree_iff epsilon_le_tolerance, ← Tree.exists_levels_iff epsilon_le_tolerance, hc]
    exact c.exists_levels_faces

/-! ### Any two shapes -/

/-- **When building a tree of a shape ends**, and when an operation on two shapes does. -/
theorem ends_iff_of_ofShape {shape' : Shape ℝ} (heps : Scalar.epsilon ≤ eps)
    (ha : ofShape shape = .ok a) (hb : ofShape shape' = .ok b) :
    (a.HasTree eps ↔ ¬ Tree.Stalls eps a.polygons) ∧
      ((∀ q ∈ a.polygons, q.IsLarge) → a.HasTree eps) ∧
      ((∀ q ∈ a.polygons, ¬ q.IsLarge) →
        (a.HasTree eps ↔ ∀ q ∈ a.polygons, Plane.ground.sideOfPolygon eps q = .on)) ∧
      (eps = tolerance → (∀ radius center segments, shape ≠ .sphere radius center segments) →
        (a.HasTree eps ↔ (∃ q ∈ a.polygons, q.IsLarge) ∨
          ∀ q ∈ a.polygons, Plane.ground.sideOfPolygon eps q = .on)) ∧
      ∀ c, ((∃ levels, (combineWith ⟨eps, levels⟩ c a b).isSome) ↔ (meets a b = true →
          ∃ levels ta tb, a.tree? ⟨eps, levels⟩ = some ta ∧ b.tree? ⟨eps, levels⟩ = some tb ∧
            ¬ (Tree.keptBy eps c ta tb).1.StallsBelow eps (Tree.keptBy eps c ta tb).2.polygons)) ∧
        ((∀ q ∈ a.polygons ++ b.polygons, q.IsLarge) →
          ∃ levels, (combineWith ⟨eps, levels⟩ c a b).isSome) := by
  refine ⟨hasTree_iff heps a, fun hlarge => ?_, hasTree_iff_of_not_isLarge heps ha, ?_,
    fun c => ⟨?_, ?_⟩⟩
  · exact ⟨_, isSome_tree?_of_isLarge heps ha hlarge le_rfl⟩
  · rintro rfl hshape
    exact hasTree_iff_of_ofShape ha hshape
  · cases hmeets : meets a b with
    | false => exact iff_of_true ⟨0, isSome_combineWith_of_not_meets hmeets c⟩ (by simp)
    | true =>
      rw [exists_levels_combineWith_iff heps hmeets c]
      exact ⟨fun h _ => h, fun h => h rfl⟩
  · exact fun hlarge => ⟨_, isSome_combineWith_of_isLarge heps ha hb hlarge le_rfl c⟩

/-- A cube has a tree, and all operations on it and itself end. -/
theorem ends_iff_of_ofShape_cubes : Scalar.epsilon ≤ tolerance ∧
    ∃ m, ofShape (.cuboid ⟨2, 2, 2⟩ none) = .ok m ∧ m.HasTree tolerance ∧
      ∀ c, ∃ levels, (combineWith ⟨tolerance, levels⟩ c m m).isSome := by
  have hmade : ofShape (.cuboid ⟨2, 2, 2⟩ none)
      = .ok (ofPolygons (cuboidFaces ((none : Option (Vec3 ℝ)).getD 0
        - (⟨2, 2, 2⟩ : Vec3 ℝ).scale Scalar.half) ⟨2, 2, 2⟩)) :=
    cuboid_eq_ok.mpr ⟨by norm_num, by norm_num⟩
  have hlarge : ∀ q ∈ cuboidFaces ((none : Option (Vec3 ℝ)).getD 0
      - (⟨2, 2, 2⟩ : Vec3 ℝ).scale Scalar.half) ⟨2, 2, 2⟩, q.IsLarge := by
    intro q hq
    obtain ⟨d, rfl⟩ := Facing.mem_cuboidFaces.mp hq
    rw [Facing.isLarge_face (by norm_num), Scalar.epsilon_real]
    cases d <;> norm_num [Facing.doubledArea]
  obtain ⟨-, htree, -, -, hends⟩ := ends_iff_of_ofShape epsilon_le_tolerance hmade hmade
  exact ⟨epsilon_le_tolerance, _, hmade, htree hlarge, fun c => (hends c).2 fun q hq =>
    (List.mem_append.mp hq).elim (hlarge q) (hlarge q)⟩

/-- The faces of a cube that is small enough all carry the ground plane, and building its
tree goes on for ever if it is above the ground. -/
theorem exists_cuboid_without_tree :
    ∃ m, ofShape (.cuboid (.splat (1 / 1000000000)) (some ⟨0, 0, 10⟩)) = .ok m ∧
      ∀ levels, m.tree? ⟨tolerance, levels⟩ = none := by
  set size : Vec3 ℝ := .splat (1 / 1000000000) with hsize
  set o : Vec3 ℝ := (some ⟨0, 0, 10⟩ : Option (Vec3 ℝ)).getD 0 - size.scale Scalar.half with ho
  have h₀ : 0 ≤ size.x ∧ 0 ≤ size.y ∧ 0 ≤ size.z := by norm_num [hsize, Vec3.splat]
  have hmade : cuboid size (some ⟨0, 0, 10⟩) = .ok (ofPolygons (cuboidFaces o size)) :=
    cuboid_eq_ok.mpr ⟨h₀, by norm_num [hsize, ho, Vec3.splat]⟩
  have hnone : ¬ (ofPolygons (cuboidFaces o size)).HasTree tolerance := by
    rw [hasTree_cuboid_iff epsilon_le_tolerance epsilon_le_two_mul_tolerance hmade, not_or]
    constructor
    · rintro ⟨q, hq, hlarge⟩
      obtain ⟨d, rfl⟩ := Facing.mem_cuboidFaces.mp hq
      rw [Facing.isLarge_face h₀, Scalar.epsilon_real] at hlarge
      cases d <;> norm_num [Facing.doubledArea, hsize, Vec3.splat] at hlarge
    · intro hon
      have hcorner := Plane.sideOfPolygon_eq_on.mp (hon _ (Facing.mem_cuboidFaces.mpr ⟨.down, rfl⟩))
        (o + ⟨0, 0, 0⟩) (by simp [Facing.corners])
      rw [Plane.sideOf_eq_on, Plane.ground_signedDistance, tolerance_eq, abs_le] at hcorner
      norm_num [ho, hsize, Vec3.splat] at hcorner
  refine ⟨_, hmade, fun levels => ?_⟩
  rw [← Option.not_isSome_iff_eq_none]
  exact fun h => hnone ⟨levels, h⟩

end Solids.Mesh
