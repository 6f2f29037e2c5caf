import Solids.Proofs.ObjText
import Solids.Proofs.RoundShape
/-!
# Solids.Proofs.Seam

**Whether the file of a round shape is closed.** The faces of a round shape are the cells of a grid,
and a file tells two corners of the grid apart by their keys. So the file is closed, every edge of a
face being taken back by another one, when the edges at the seam of the grid are taken back as far
as their keys go.

The corners at the end of the last slice are computed from another angle than those at the start of
the first one, and each corner on a pole from the angle of its own slice. Nothing makes these
computations agree. For a cylinder this is the only thing that matters: its file is closed when the
computed positions at the end of the last slice are those at the start of the first one, or when top
and bottom are at the same height.

Main definition: `Obj.gridKey` — what a file tells the corners of a round shape apart by.

Main statements:

* `Obj.isBalanced_facesOf_iff` — which files of round shapes are closed;
* `Obj.exists_not_isBalanced` — a file that is not, the circle functions being those of the C
  library.
-/

namespace Solids.Obj

/-- The faces among the lines of a file. -/
def facesOf {N : Type} (lines : List (Line N)) : List (List ℕ) :=
  lines.filterMap fun
    | .face numbers => some numbers
    | _ => none

@[simp] theorem facesOf_contents {N : Type} (value : Double → N) (name : String)
    (positions : List (Vec3 Double)) (faces : List (List ℕ)) :
    facesOf (contents value name positions faces) = faces := by
  simp [facesOf, contents, List.filterMap_map]

/-! ### Numbers and keys -/

/-- The numbers of first use tell apart what the keys do. -/
theorem isBalanced_steps_numbered (outlines : List (List (Vec3 Double))) :
    IsBalanced (Grid.steps (outlines.map (numbered outlines.flatten)))
      ↔ IsBalanced (Grid.steps (outlines.map (List.map key))) := by
  set keys := outlines.flatten.map key with hkeys
  have hnumbered : outlines.map (numbered outlines.flatten)
      = (outlines.map (List.map key)).map (List.map (firstUse keys)) := by
    rw [List.map_map]
    refine List.map_congr_left fun outline _ => ?_
    rw [Function.comp_apply, List.map_map]
    rfl
  rw [hnumbered, Grid.steps_map]
  refine isBalanced_map_iff (g := fun n => (keys.eraseDups[n - 1]?).getD (0, 0, 0)) fun e he => ?_
  obtain ⟨l, hl, he⟩ := List.mem_flatMap.mp he
  obtain ⟨outline, houtline, rfl⟩ := List.mem_map.mp hl
  have hmem : ∀ k ∈ outline.map key, k ∈ keys := by
    intro k hk
    obtain ⟨p, hp, rfl⟩ := List.mem_map.mp hk
    exact List.mem_map_of_mem (List.mem_flatten.mpr ⟨outline, houtline, hp⟩)
  have hget : ∀ k ∈ keys, (keys.eraseDups[firstUse keys k - 1]?).getD (0, 0, 0) = k := by
    intro k hk
    rw [getElem?_firstUse hk, Option.getD_some]
  obtain ⟨hfirst, hsecond⟩ := Outline.mem_of_mem_edges he
  exact ⟨hget _ (hmem _ hfirst), hget _ (hmem _ hsecond)⟩

/-! ### Files of round shapes -/

section RoundShape

variable [Trig Double] {s : Shape Double} {m : Mesh Double} {name : String}

/-- What a file tells the corners of a round shape apart by. -/
def gridKey (s : Shape Double) (i j : ℕ) : Key := key (s.gridPoint i j)

/-- All faces of a round shape have enough corners for a file. -/
theorem outlines_eq_of_ofShape (hround : s.service ≠ .cuboid) (h : Mesh.ofShape s = .ok m) :
    outlines m.polygons = m.outlines := by
  obtain ⟨⟨-, hlayers⟩, harranges⟩ := Mesh.arranges_of_ofShape hround h
  rw [outlines, Mesh.outlines, List.filter_eq_self.mpr]
  intro q hq
  have hlength := harranges.length_of_mem hlayers _ (List.mem_map_of_mem hq)
  rw [List.length_map] at hlength
  exact decide_eq_true (by omega)

theorem isBalanced_faces_iff (hround : s.service ≠ .cuboid) (h : Mesh.ofShape s = .ok m) :
    IsBalanced (Grid.steps (faces m).2)
      ↔ IsBalanced (Grid.seam (gridKey s) s.slices s.layers) := by
  obtain ⟨⟨-, hlayers⟩, harranges⟩ := Mesh.arranges_of_ofShape hround h
  rw [(faces_spec m).2.2, isBalanced_steps_numbered, outlines_eq_of_ofShape hround h]
  exact (harranges.map key).isBalanced_iff hlayers

/-- The keys of the corners of a cylinder: those of the axis and of the rim, at two heights. -/
theorem exists_gridKey_cylinder (hcylinder : s.service = .cylinder) :
    s.layers = 3 ∧ ∃ (axis : UInt64 × UInt64) (rim : ℕ → UInt64 × UInt64) (top bottom : UInt64),
      ∀ i, gridKey s i 0 = (axis.1, axis.2, top) ∧
        gridKey s i 1 = ((rim i).1, (rim i).2, top) ∧
        gridKey s i 2 = ((rim i).1, (rim i).2, bottom) ∧
        gridKey s i 3 = (axis.1, axis.2, bottom) := by
  cases s with
  | cuboid size center => cases hcylinder
  | sphere radius center segments => cases hcylinder
  | cylinder height radius center segments =>
    set s : Shape Double := .cylinder height radius center segments
    let rimKey (i : ℕ) : Key := key (Shape.rimPoint s.center radius 0 s.slices i)
    exact ⟨rfl, ((s.center.x + 0).bits, (s.center.y + 0).bits),
      fun i => ((rimKey i).1, (rimKey i).2.1), (s.center.z + height * Scalar.half + 0).bits,
      (s.center.z - height * Scalar.half + 0).bits, fun i => ⟨rfl, rfl, rfl, rfl⟩⟩

/-- The edges at the seam of a cylinder are taken back if it closes exactly, or has no height as far
as keys go. -/
theorem isBalanced_seam_cylinder_iff (hcylinder : s.service = .cylinder) :
    IsBalanced (Grid.seam (gridKey s) s.slices s.layers)
      ↔ gridKey s s.slices 1 = gridKey s 0 1 ∨ gridKey s 0 0 = gridKey s 0 3 := by
  obtain ⟨hlayers, axis, rim, top, bottom, hkeys⟩ := exists_gridKey_cylinder hcylinder
  have hsurplus : ∀ e, surplus e (Grid.seam (gridKey s) s.slices s.layers) = _ := fun e =>
    Grid.surplus_seam_of_poles e (by omega) (fun i _ => by rw [(hkeys i).1, (hkeys 0).1])
      fun i _ => by rw [hlayers, (hkeys i).2.2.2, (hkeys 0).2.2.2]
  obtain ⟨hk0, hk1, hk2, hk3⟩ := hkeys 0
  obtain ⟨hn0, hn1, hn2, hn3⟩ := hkeys s.slices
  simp only [hlayers, Finset.sum_range_succ, Finset.sum_range_zero, zero_add, Nat.reduceAdd, hk0,
    hk1, hk2, hk3, hn0, hn1, hn2, hn3] at hsurplus
  rw [isBalanced_iff, hk0, hk1, hk3, hn1, hlayers]
  constructor
  · intro hzero
    by_contra hopen
    obtain ⟨hturn, hheight⟩ := not_or.mp hopen
    have htop : top ≠ bottom := fun h => hheight (by rw [h])
    have hrim : ¬ ((rim s.slices).1 = (rim 0).1 ∧ (rim s.slices).2 = (rim 0).2) := fun h =>
      hturn (by rw [h.1, h.2])
    -- no other step at the seam goes between these two corners
    have hdown := hsurplus (((rim 0).1, (rim 0).2, top), ((rim 0).1, (rim 0).2, bottom))
    rw [hzero] at hdown
    simp [surplus, htop, htop.symm, hrim] at hdown
  · intro hcloses
    rcases hcloses with hturn | hflat
    · simp only [Prod.mk.injEq, and_true] at hturn
      obtain ⟨hfirst, hsecond⟩ := hturn
      intro e
      rw [hsurplus, hfirst, hsecond]
      ring
    · obtain rfl : top = bottom := by simpa using hflat
      intro e
      have hloop : ∀ k : Key, surplus e [(k, k)] = 0 := fun k => by
        have h := surplus_swap e k k
        omega
      rw [hsurplus, hloop, hloop, surplus_swap e (axis.1, axis.2, top),
        surplus_swap e (axis.1, axis.2, top)]
      ring

/-- **Which files of round shapes are closed.** -/
theorem isBalanced_facesOf_iff (hround : s.service ≠ .cuboid) (h : Mesh.ofShape s = .ok m)
    (hname : '\n' ∉ name.toList) :
    ∃ content, read? some (Content.textOfLines (lines name m)) = some content ∧
      (IsBalanced (Grid.steps (facesOf content))
        ↔ IsBalanced (Grid.seam (gridKey s) s.slices s.layers)) ∧
      (Grid.ClosesUp (gridKey s) s.slices s.layers → IsBalanced (Grid.steps (facesOf content))) ∧
      (s.service = .cylinder → (IsBalanced (Grid.steps (facesOf content))
        ↔ gridKey s s.slices 1 = gridKey s 0 1 ∨ gridKey s 0 0 = gridKey s 0 3)) := by
  have hread := read?_textOfLines (m := m) some (fun x => Layout.plain.text x.reading) hname
    fun _ _ _ _ => rfl
  have hiff := isBalanced_faces_iff hround h
  refine ⟨_, hread, ?_⟩
  rw [facesOf_contents]
  refine ⟨hiff, fun hcloses => ?_, fun hcylinder => ?_⟩
  · exact hiff.mpr (hcloses.isBalanced_seam (Mesh.arranges_of_ofShape hround h).1.2)
  · rw [hiff, isBalanced_seam_cylinder_iff hcylinder]

end RoundShape

/-! ### Cylinders of four slices -/

/-- The circle functions of the C library, at the five angles of a cylinder of four slices. A
quarter turn is rounded, and what is computed from it is near the axes but not on them. -/
abbrev libraryTrig : Trig Double :=
  let at? (values : List Float) (angle : Double) : Option Float :=
    values[([0x0000000000000000, 0x3FF921FB54442D18, 0x400921FB54442D18, 0x4012D97C7F3321D2,
      0x401921FB54442D18] : List UInt64).idxOf angle.bits]?
  { pi := .ofFloat 3.141592653589793
    sin := fun angle => .ofFloat ((at? [0.0, 1.0, 1.2246467991473532e-16, -1.0,
      -2.4492935982947064e-16] angle).getD 0.0)
    cos := fun angle => .ofFloat ((at? [1.0, 6.123233995736766e-17, -1.0, -1.8369701987210297e-16,
      1.0] angle).getD 0.0) }

/-- A cylinder of four slices that is away from the origin along the second axis. -/
def column (distance : Double) : Shape Double :=
  .cylinder (.ofNat 2) 1 (some ⟨0, distance, 0⟩) (some 4)

theorem exists_ofShape_column (distance : Double) (h : Scalar.isFinite distance = true) :
    ∃ m, @Mesh.ofShape Double _ libraryTrig (column distance) = .ok m := by
  let _ : Trig Double := libraryTrig
  have hcenter : (column distance).center.isFinite = true := by
    have hzero : Scalar.isFinite (0 : Double) = true := by decide +kernel
    simp [column, Shape.center, Vec3.isFinite, Vec3.all, hzero, h]
  have hcount : 4 * 3 ≤ Mesh.polygonLimit := by decide
  exact ⟨_, (Mesh.cylinder_ok_iff (s := column distance) rfl).mpr ⟨⟨if_pos (by decide +kernel),
    if_pos (by decide +kernel), if_pos hcenter, le_refl 4, hcount⟩, rfl⟩⟩

/-- Away from the origin what is left of a full turn is rounded off, and the file of a cylinder is
closed. -/
theorem isBalanced_facesOf_iff_away : ∃ m content,
    @Mesh.ofShape Double _ libraryTrig (column (.ofNat 10)) = .ok m ∧
      read? some (Content.textOfLines (lines "c" m)) = some content ∧
      IsBalanced (Grid.steps (facesOf content)) := by
  let _ : Trig Double := libraryTrig
  obtain ⟨m, hmade⟩ := exists_ofShape_column (.ofNat 10) (by decide +kernel)
  obtain ⟨content, hread, -, -, hiff⟩ :=
    isBalanced_facesOf_iff (by decide) hmade (by decide : '\n' ∉ "c".toList)
  have hcloses : gridKey (column (.ofNat 10)) 4 1 = gridKey (column (.ofNat 10)) 0 1 := by
    decide +kernel
  exact ⟨m, content, hmade, hread, (hiff rfl).mpr (.inl hcloses)⟩

/-- The file of a cylinder at the origin is open: what is left of a full turn keeps the corners at
the end of the last slice apart from those at the start of the first one. -/
theorem exists_not_isBalanced : ∃ m content,
    @Mesh.ofShape Double _ libraryTrig (column 0) = .ok m ∧
      read? some (Content.textOfLines (lines "c" m)) = some content ∧
      ¬ IsBalanced (Grid.steps (facesOf content)) := by
  let _ : Trig Double := libraryTrig
  obtain ⟨m, hmade⟩ := exists_ofShape_column 0 (by decide +kernel)
  have hread := read?_textOfLines (m := m) some (fun x => Layout.plain.text x.reading)
    (by decide : '\n' ∉ "c".toList) fun _ _ _ _ => rfl
  refine ⟨m, _, hmade, hread, ?_⟩
  rw [facesOf_contents, isBalanced_faces_iff (by decide) hmade, isBalanced_seam_cylinder_iff rfl]
  have hopen : ¬ (gridKey (column 0) 4 1 = gridKey (column 0) 0 1 ∨
      gridKey (column 0) 0 0 = gridKey (column 0) 0 3) := by
    decide +kernel
  exact hopen

end Solids.Obj
