import Solids.Proofs.Angles
import Solids.Proofs.Cuboid
import Solids.Proofs.RoundShape
/-!
# Solids.Proofs.Watertight

**The basic shapes are watertight.** Where two faces meet they have an edge in common, and they run
along it in opposite directions. So every edge of a face is the edge of one other face, run along
backwards, and the faces enclose something.

For a box this is a matter of its eight corners. The grid of a round shape closes up, since a full
turn ends where it began, and since what is at a pole is on the axis; and no other corners coincide,
since no two angles of a turn have the same sine and cosine.

Main definition: `IsWatertight`.

Main statement: `Mesh.isWatertight_of_ofShape`.
-/

namespace Solids

/-- No outline comes to a corner twice, no two outlines have an edge in common, and with every edge
some outline has the edge back. -/
structure IsWatertight {α : Type} (outlines : List (List α)) : Prop where
  /-- All corners of a face are different. -/
  nodup : ∀ l ∈ outlines, l.Nodup
  /-- An edge is an edge of one face alone. -/
  apart : outlines.Pairwise fun l r => ∀ e ∈ Plane.edges l, e ∉ Plane.edges r
  /-- The edges come in pairs. -/
  swap_mem : ∀ e ∈ Grid.steps outlines, e.swap ∈ Grid.steps outlines

namespace IsWatertight

variable {α β : Type} {outlines : List (List α)}

theorem nil : IsWatertight ([] : List (List α)) := ⟨by simp, .nil, by simp [Grid.steps]⟩

/-- Faces stay watertight when their corners are renamed. -/
theorem map (h : IsWatertight outlines) {f : α → β} (hf : Function.Injective f) :
    IsWatertight (outlines.map (List.map f)) where
  nodup l hl := by
    obtain ⟨r, hr, rfl⟩ := List.mem_map.mp hl
    exact (h.nodup r hr).map hf
  apart := by
    rw [List.pairwise_map]
    refine h.apart.imp fun {l r} hapart e he he' => ?_
    rw [Outline.edges_map, List.mem_map] at he he'
    obtain ⟨s, hs, rfl⟩ := he
    obtain ⟨t, ht, heq⟩ := he'
    exact hapart s hs (hf.prodMap hf heq ▸ ht)
  swap_mem e he := by
    rw [Grid.steps_map, List.mem_map] at he ⊢
    obtain ⟨s, hs, rfl⟩ := he
    exact ⟨s.swap, h.swap_mem s hs, rfl⟩

/-- The faces in a grid that closes up are watertight. -/
theorem of_arranges {N : ℕ → ℕ → α} {slices layers : ℕ}
    (h : Grid.Arranges N slices layers outlines) (hcloses : Grid.ClosesUp N slices layers)
    (hapart : Grid.KeepsApart N slices layers) (hslices : 3 ≤ slices) (hlayers : 2 ≤ layers) :
    IsWatertight outlines where
  nodup := h.nodup hapart hslices hlayers
  apart := h.pairwise_disjoint hcloses hapart hslices hlayers
  swap_mem e he := by
    classical
    exact ((h.isBalanced_iff hlayers).mpr (hcloses.isBalanced_seam hlayers)).swap_mem he

end IsWatertight

/-! ### Boxes -/

namespace Facing

/-- The corners of a face, each by the sides of the box that it is on. -/
def sides : Facing → List (Bool × Bool × Bool)
  | down => [(false, false, false), (false, true, false), (true, true, false), (true, false, false)]
  | up => [(false, false, true), (true, false, true), (true, true, true), (false, true, true)]
  | front => [(false, false, false), (true, false, false), (true, false, true),
      (false, false, true)]
  | back => [(false, true, false), (false, true, true), (true, true, true), (true, true, false)]
  | left => [(false, false, false), (false, false, true), (false, true, true), (false, true, false)]
  | right => [(true, false, false), (true, true, false), (true, true, true), (true, false, true)]

/-- A corner of a box. -/
noncomputable def corner (o size : Vec3 ℝ) (side : Bool × Bool × Bool) : Vec3 ℝ :=
  o + ⟨if side.1 then size.x else 0, if side.2.1 then size.y else 0, if side.2.2 then size.z else 0⟩

theorem corners_eq (o size : Vec3 ℝ) (d : Facing) :
    d.corners o size = d.sides.map (corner o size) := by
  cases d <;> rfl

/-- The corners of a box with edges of any length are different. -/
theorem corner_injective (o : Vec3 ℝ) {size : Vec3 ℝ} (hx : size.x ≠ 0) (hy : size.y ≠ 0)
    (hz : size.z ≠ 0) : Function.Injective (corner o size) := by
  intro ⟨a, b, c⟩ ⟨a', b', c'⟩ h
  have h : (⟨if a then size.x else 0, if b then size.y else 0, if c then size.z else 0⟩ : Vec3 ℝ)
      = ⟨if a' then size.x else 0, if b' then size.y else 0, if c' then size.z else 0⟩ :=
    add_left_cancel h
  obtain ⟨h₁, h₂, h₃⟩ := Vec3.ext_iff.mp h
  cases a <;> cases a' <;> cases b <;> cases b' <;> cases c <;> cases c' <;> simp_all

theorem isWatertight_sides :
    IsWatertight ([down, up, front, back, left, right].map sides) :=
  ⟨by decide, by decide, by decide⟩

end Facing

theorem Mesh.isWatertight_cuboidFaces (o : Vec3 ℝ) {size : Vec3 ℝ} (hx : size.x ≠ 0)
    (hy : size.y ≠ 0) (hz : size.z ≠ 0) :
    IsWatertight (ofPolygons (cuboidFaces o size)).outlines := by
  have h := Facing.isWatertight_sides.map (Facing.corner_injective o hx hy hz)
  have houtlines : (ofPolygons (cuboidFaces o size)).outlines
      = ([.down, .up, .front, .back, .left, .right].map Facing.sides).map
        (List.map (Facing.corner o size)) := by
    rw [outlines, ofPolygons_polygons, Facing.cuboidFaces_eq, List.map_map, List.map_map]
    refine List.map_congr_left fun d _ => ?_
    exact Facing.face_corners.trans (d.corners_eq o size)
  rwa [houtlines]

/-! ### Balls -/

section Ball

variable {radius : ℝ} {center : Option (Vec3 ℝ)} {segments : Option UInt32} {s : Shape ℝ}

/-- The corners of a ball by their angles. -/
theorem Shape.gridPoint_sphere (hs : s = .sphere radius center segments) (i j : ℕ) :
    s.gridPoint i j = s.center + radius •
      (⟨Real.sin (layerAngle s.layers j) * Real.cos (Mesh.sliceAngle s.slices i),
        Real.sin (layerAngle s.layers j) * Real.sin (Mesh.sliceAngle s.slices i),
        Real.cos (layerAngle s.layers j)⟩ : Vec3 ℝ) := by
  subst hs
  rfl

theorem Shape.closesUp_sphere (hs : s = .sphere radius center segments) (hslices : 0 < s.slices)
    (hlayers : 0 < s.layers) : Grid.ClosesUp s.gridPoint s.slices s.layers := by
  intro i _ j _ i' _ j' _ hmeet
  obtain ⟨rfl, hmeet⟩ := hmeet
  rw [gridPoint_sphere hs, gridPoint_sphere hs]
  rcases hmeet with rfl | rfl | hwrap
  · simp [layerAngle_zero]
  · simp [layerAngle_self hlayers]
  · obtain ⟨hcos, hsin⟩ := cos_eq_of_wrap hslices hwrap
    rw [hcos, hsin]

theorem Shape.keepsApart_sphere (hs : s = .sphere radius center segments) (hradius : 0 < radius)
    (hslices : 0 < s.slices) (hlayers : 0 < s.layers) :
    Grid.KeepsApart s.gridPoint s.slices s.layers := by
  intro i hi j hj i' hi' j' hj' h
  rw [gridPoint_sphere hs, gridPoint_sphere hs] at h
  obtain ⟨hx, hy, hz⟩ := Vec3.ext_iff.mp (smul_right_injective _ hradius.ne' (add_left_cancel h))
  dsimp only at hx hy hz
  obtain rfl : j = j' := layerAngle_injective hlayers
    (Real.injOn_cos (layerAngle_mem hj) (layerAngle_mem hj') hz)
  refine ⟨rfl, ?_⟩
  by_cases hpole : j = 0 ∨ j = s.layers
  · exact hpole.imp_right .inl
  · have hsin : Real.sin (layerAngle s.layers j) ≠ 0 :=
      (sin_layerAngle_pos (by omega) (by omega)).ne'
    exact .inr (.inr (eq_or_wrap_of_cos_eq_of_sin_eq hslices hi hi' (mul_left_cancel₀ hsin hx)
      (mul_left_cancel₀ hsin hy)))

end Ball

/-! ### Cylinders -/

section Cylinder

variable {height radius : ℝ} {center : Option (Vec3 ℝ)} {segments : Option UInt32} {s : Shape ℝ}

theorem Shape.layers_cylinder (hs : s = .cylinder height radius center segments) :
    s.layers = 3 := by
  subst hs
  rfl

theorem Shape.closesUp_cylinder (hs : s = .cylinder height radius center segments)
    (hslices : 0 < s.slices) : Grid.ClosesUp s.gridPoint s.slices s.layers := by
  have hwrap : ∀ i i' z, i = i' ∨ i = 0 ∧ i' = s.slices ∨ i = s.slices ∧ i' = 0 →
      rimPoint s.center radius z s.slices i = rimPoint s.center radius z s.slices i' := by
    intro i i' z h
    obtain ⟨hcos, hsin⟩ := cos_eq_of_wrap hslices h
    show Vec3.mk (_ + _ * Real.cos _) (_ + _ * Real.sin _) z = ⟨_ + _ * Real.cos _, _, z⟩
    rw [hcos, hsin]
    rfl
  rw [layers_cylinder hs]
  intro i _ j hj i' _ j' _ hmeet
  obtain ⟨rfl, hmeet⟩ := hmeet
  have hmeet : j = 0 ∨ j = 3 ∨ _ := hmeet
  subst hs
  match j, hj with
  | 0, _ => rfl
  | 1, _ => exact hwrap i i' _ (by omega)
  | 2, _ => exact hwrap i i' _ (by omega)
  | 3, _ => rfl

/-- No point of a rim is on the axis. -/
theorem Shape.rimPoint_ne_axis (o : Vec3 ℝ) (hradius : 0 < radius) (slices i : ℕ) (z z' : ℝ) :
    rimPoint o radius z slices i ≠ ⟨o.x, o.y, z'⟩ := by
  intro h
  obtain ⟨hx, hy, -⟩ := Vec3.ext_iff.mp h
  have hcos : Real.cos (Mesh.sliceAngle slices i) = 0 :=
    (mul_eq_zero.mp (add_eq_left.mp hx)).resolve_left hradius.ne'
  have hsin : Real.sin (Mesh.sliceAngle slices i) = 0 :=
    (mul_eq_zero.mp (add_eq_left.mp hy)).resolve_left hradius.ne'
  have hunit := Real.sin_sq_add_cos_sq (Mesh.sliceAngle slices i)
  rw [hcos, hsin] at hunit
  norm_num at hunit

theorem Shape.keepsApart_cylinder (hs : s = .cylinder height radius center segments)
    (hheight : 0 < height) (hradius : 0 < radius) (hslices : 0 < s.slices) :
    Grid.KeepsApart s.gridPoint s.slices s.layers := by
  have haxis := fun i z z' => rimPoint_ne_axis s.center hradius s.slices i z z'
  have hturn : ∀ z, ∀ i ≤ s.slices, ∀ i' ≤ s.slices,
      rimPoint s.center radius z s.slices i = rimPoint s.center radius z s.slices i' →
        i = i' ∨ i = 0 ∧ i' = s.slices ∨ i = s.slices ∧ i' = 0 := by
    intro z i hi i' hi' h
    obtain ⟨hx, hy, -⟩ := Vec3.ext_iff.mp h
    exact eq_or_wrap_of_cos_eq_of_sin_eq hslices hi hi'
      (mul_left_cancel₀ hradius.ne' (add_left_cancel hx))
      (mul_left_cancel₀ hradius.ne' (add_left_cancel hy))
  have hlevel : ∀ i, ∀ j ≤ 3, (s.gridPoint i j).z
      = if j ≤ 1 then s.center.z + height / 2 else s.center.z - height / 2 := by
    subst hs
    intro i j hj
    interval_cases j <;> simp [gridPoint, rimPoint, div_eq_mul_inv]
  rw [layers_cylinder hs]
  intro i hi j hj i' hi' j' hj' h
  have hsame : j ≤ 1 ↔ j' ≤ 1 := by
    have hz := congrArg Vec3.z h
    rw [hlevel i j hj, hlevel i' j' hj'] at hz
    by_cases h₁ : j ≤ 1 <;> by_cases h₂ : j' ≤ 1 <;> simp only [h₁, h₂, if_true, if_false] at hz ⊢
      <;> linarith
  subst hs
  match j, j', hj, hj' with
  | 0, 0, _, _ => exact ⟨rfl, .inl rfl⟩
  | 0, 1, _, _ => exact absurd h.symm (haxis i' _ _)
  | 1, 0, _, _ => exact absurd h (haxis i _ _)
  | 1, 1, _, _ => exact ⟨rfl, .inr (.inr (hturn _ i hi i' hi' h))⟩
  | 2, 2, _, _ => exact ⟨rfl, .inr (.inr (hturn _ i hi i' hi' h))⟩
  | 2, 3, _, _ => exact absurd h (haxis i _ _)
  | 3, 2, _, _ => exact absurd h.symm (haxis i' _ _)
  | 3, 3, _, _ => exact ⟨rfl, .inr (.inl rfl)⟩
  | 0, _ + 2, _, _ | 1, _ + 2, _, _ => omega

end Cylinder

/-! ### All shapes -/

namespace Mesh

variable {s : Shape ℝ} {m : Mesh ℝ}

/-- The grid of a round shape closes up, and keeps apart what is at different places. -/
theorem closesUp_keepsApart_of_ofShape (hround : s.service ≠ .cuboid) (h : ofShape s = .ok m) :
    Grid.ClosesUp s.gridPoint s.slices s.layers ∧
      Grid.KeepsApart s.gridPoint s.slices s.layers := by
  obtain ⟨⟨hslices, hlayers⟩, -⟩ := arranges_of_ofShape hround h
  have hslices : 0 < s.slices := by omega
  have hlayers : 0 < s.layers := by omega
  cases s with
  | cuboid size center => exact absurd rfl hround
  | sphere radius center segments =>
    obtain ⟨⟨hradius, -⟩, -⟩ := (sphere_ok_iff rfl).mp h
    exact ⟨Shape.closesUp_sphere rfl hslices hlayers,
      Shape.keepsApart_sphere rfl (requirePositive_real.mp hradius) hslices hlayers⟩
  | cylinder height radius center segments =>
    obtain ⟨⟨hheight, hradius, -⟩, -⟩ := (cylinder_ok_iff rfl).mp h
    exact ⟨Shape.closesUp_cylinder rfl hslices,
      Shape.keepsApart_cylinder rfl (requirePositive_real.mp hheight)
        (requirePositive_real.mp hradius) hslices⟩

theorem isWatertight_of_round (hround : s.service ≠ .cuboid) (h : ofShape s = .ok m) :
    IsWatertight m.outlines ∧ 2 ≤ s.layers ∧
      Grid.Arranges s.gridPoint s.slices s.layers m.outlines := by
  obtain ⟨⟨hslices, hlayers⟩, harranges⟩ := arranges_of_ofShape hround h
  obtain ⟨hcloses, hapart⟩ := closesUp_keepsApart_of_ofShape hround h
  exact ⟨.of_arranges harranges hcloses hapart (by omega) hlayers, hlayers, harranges⟩

theorem isWatertight_of_cuboid {size : Vec3 ℝ} {center : Option (Vec3 ℝ)}
    (h : cuboid size center = .ok m) : IsWatertight m.outlines := by
  obtain ⟨-, rfl⟩ := cuboid_eq_ok.mp h
  split
  · exact .nil
  · next hzero =>
    simp only [not_or] at hzero
    obtain ⟨hx, hy, hz⟩ := hzero
    exact isWatertight_cuboidFaces _ hx hy hz

/-- **The basic shapes are watertight**, whatever measures and number of segments they are made
with; and so many polygons, triangles and others, make up a ball or a cylinder. -/
theorem isWatertight_of_ofShape (h : ofShape s = .ok m) :
    IsWatertight m.outlines ∧
      (s.service = .sphere → m.polygons.length = s.slices * max (s.slices / 2) 2 ∧
        m.polygons.countP (fun q => q.vertices.length = 3) = 2 * s.slices ∧
        ∀ q ∈ m.polygons, q.vertices.length = 3 ∨ q.vertices.length = 4) ∧
      (s.service = .cylinder → m.polygons.length = 3 * s.slices) := by
  have hpolygons : m.outlines.length = m.polygons.length := List.length_map _
  cases s with
  | cuboid size center =>
    exact ⟨isWatertight_of_cuboid h, by simp [Shape.service], by simp [Shape.service]⟩
  | sphere radius center segments =>
    obtain ⟨hwatertight, hlayers, harranges⟩ := isWatertight_of_round (by simp [Shape.service]) h
    refine ⟨hwatertight, fun _ => ⟨?_, ?_, fun q hq => ?_⟩, by simp [Shape.service]⟩
    · exact hpolygons.symm.trans harranges.length_eq
    · have hthree := harranges.countP_triangles hlayers
      simpa [outlines, List.countP_map, Function.comp_def] using hthree
    · have hlength := harranges.length_of_mem hlayers _ (List.mem_map_of_mem hq)
      rwa [List.length_map] at hlength
  | cylinder height radius center segments =>
    obtain ⟨hwatertight, -, harranges⟩ := isWatertight_of_round (by simp [Shape.service]) h
    refine ⟨hwatertight, by simp [Shape.service], fun _ => ?_⟩
    rw [mul_comm]
    exact hpolygons.symm.trans harranges.length_eq

/-- A ball of an odd number of segments is watertight. -/
theorem isWatertight_of_ofShape_odd : ∃ m : Mesh ℝ,
    ofShape (.sphere 1 none (some 5)) = .ok m ∧ IsWatertight m.outlines ∧
      m.polygons.length = 10 := by
  have hmade := (sphere_ok_iff (s := .sphere 1 none (some 5)) rfl).mpr
    ⟨⟨requirePositive_real.mpr one_pos, rfl, by decide, by decide⟩, rfl⟩
  obtain ⟨hwatertight, hball, -⟩ := isWatertight_of_ofShape (s := .sphere 1 none (some 5)) hmade
  exact ⟨_, hmade, hwatertight, (hball rfl).1⟩

end Mesh

end Solids
