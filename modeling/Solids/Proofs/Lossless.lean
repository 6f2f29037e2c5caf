import Solids.Proofs.ObjText
import Solids.Proofs.SignedZero
/-!
# Solids.Proofs.Lossless

**Nothing is lost in an OBJ file.** Read back, its faces are the polygons of the mesh, corner by
corner, and every position is there once.

The numbers of a file are decimals, so what they read back as is a matter of the reader. What is
assumed of it is that it reads the text of a coordinate as that coordinate.

Main definition: `Obj.Describes` — positions and faces that say what a mesh is.

Main statement: `Obj.exists_read?_describes`.
-/

namespace Solids.Obj

/-- The number refers to the position of the corner. -/
def RefersTo (positions : List (Vec3 Double)) (v : Vertex Double) (n : ℕ) : Prop :=
  (1 ≤ n ∧ n ≤ positions.length) ∧ ∃ p, positions[n - 1]? = some p ∧ SamePosition p v.pos

/-- The positions and faces say what the mesh is, and no more. -/
structure Describes (m : Mesh Double) (positions : List (Vec3 Double)) (faces : List (List ℕ)) :
    Prop where
  /-- The polygons with at least three corners have a face each, in their order, and its numbers
  refer to the corners, in their order. -/
  refers : (m.polygons.filter fun q => 3 ≤ q.vertices.length).Forall₂
    (fun q face => q.vertices.Forall₂ (RefersTo positions) face) faces
  /-- No position is there twice. -/
  distinct : positions.Pairwise fun p q => ¬ SamePosition p q
  /-- The faces use all positions, in the order of their numbers. -/
  inOrder : faces.flatten.eraseDups = List.range' 1 positions.length

variable {m : Mesh Double}

theorem mem_positions_of_mem_outlines {p : Vec3 Double}
    (h : p ∈ (outlines m.polygons).flatten) : p ∈ m.positions := by
  obtain ⟨outline, houtline, hp⟩ := List.mem_flatten.mp h
  obtain ⟨q, hq, rfl⟩ := List.mem_map.mp houtline
  exact List.mem_flatMap.mpr ⟨q, List.mem_of_mem_filter hq, hp⟩

/-- What the writer lists describes the mesh. -/
theorem describes_faces (hfinite : ∀ p ∈ m.positions, ∀ x ∈ p.toList, x.isFinite = true) :
    Describes m (faces m).1 (faces m).2 := by
  obtain ⟨hkeys, hmem, hfaces⟩ := faces_spec m
  set used := (outlines m.polygons).flatten with hused
  have hfinite : ∀ p ∈ used, ∀ x ∈ p.toList, x.isFinite = true := fun p hp =>
    hfinite p (mem_positions_of_mem_outlines hp)
  have hlength : (faces m).1.length = (used.map key).eraseDups.length := by
    rw [← hkeys, List.length_map]
  refine ⟨?_, ?_, ?_⟩
  · rw [hfaces, outlines, List.map_map, List.forall₂_map_right_iff, List.forall₂_same]
    intro q hq
    rw [Function.comp_apply, numbered, List.map_map, List.forall₂_map_right_iff,
      List.forall₂_same]
    intro v hv
    have hpos : v.pos ∈ used :=
      List.mem_flatten.mpr ⟨_, List.mem_map_of_mem hq, List.mem_map_of_mem hv⟩
    have hkey : key v.pos ∈ used.map key := List.mem_map_of_mem hpos
    refine ⟨⟨Nat.le_add_left _ _, hlength ▸ firstUse_le hkey⟩, ?_⟩
    have hget := getElem?_firstUse hkey
    rw [← hkeys, List.getElem?_map, Option.map_eq_some_iff] at hget
    obtain ⟨p, hp, heq⟩ := hget
    exact ⟨p, hp, (key_inj (hfinite p (hmem p (List.mem_of_getElem? hp)))
      (hfinite v.pos hpos)).mp heq⟩
  · have hnodup : ((faces m).1.map key).Nodup := hkeys ▸ nodup_eraseDups _
    refine (List.pairwise_map.mp hnodup).imp_of_mem fun {p q} hp hq hne hsame => ?_
    exact hne ((key_inj (hfinite p (hmem p hp)) (hfinite q (hmem q hq))).mpr hsame)
  · have hflatten : (faces m).2.flatten = (used.map key).map (firstUse (used.map key)) := by
      rw [hfaces, hused, List.map_map, List.map_flatten]
      rfl
    rw [hflatten, eraseDups_map_firstUse, hlength]

/-- **Nothing is lost in an OBJ file**, whatever mesh without infinite coordinates it is made of, if
the reader of numbers reads the text of each coordinate as that coordinate. -/
theorem exists_read?_describes {name : String} {number? : String → Option Double}
    (hname : '\n' ∉ name.toList)
    (hfinite : ∀ p ∈ m.positions, ∀ x ∈ p.toList, x.isFinite = true)
    (hnumber : ∀ p ∈ m.positions, ∀ x ∈ p.toList,
      number? (Layout.plain.text x.reading) = some x) :
    ∃ positions faces, read? number? (Content.textOfLines (lines name m)) = some
        ([.comment "Wavefront OBJ exported by csg-recipe",
          .comment (toString positions.length ++ " vertices, " ++ toString faces.length
            ++ " faces"),
          .object name]
        ++ positions.map (fun p => .position p.x p.y p.z) ++ faces.map .face) ∧
      Describes m positions faces := by
  refine ⟨(faces m).1, (faces m).2, ?_, describes_faces hfinite⟩
  refine read?_textOfLines number? id hname fun p hp => ?_
  exact hnumber p (mem_positions_of_mem_outlines ((faces_spec m).2.1 p hp))

/-- Two triangles that share an edge, one end of which is written with a negative zero the second
time, and a polygon that is no face. -/
def fold : Mesh Double :=
  let vertex (x y z : Double) : Vertex Double := ⟨⟨x, y, z⟩, Vec3.unitZ⟩
  .ofPolygons [.ofVertices [vertex 0 0 0, vertex 1 0 0, vertex 0 1 0],
    .ofVertices [vertex 0 1 1, vertex 1 0 1],
    .ofVertices [vertex 0 1 0, vertex 1 (-0) 0, vertex 0 0 1]]

/-- A reader of the numbers of `fold`. -/
def foldNumber? (text : String) : Option Double :=
  if text = "0" then some 0 else if text = "-0" then some (-0) else if text = "1" then some 1
  else none

/-- Reading the file of `fold`. -/
theorem exists_read?_describes_fold :
    ∃ positions faces, read? foldNumber? (Content.textOfLines (lines "fold" fold)) = some
        ([.comment "Wavefront OBJ exported by csg-recipe",
          .comment (toString positions.length ++ " vertices, " ++ toString faces.length
            ++ " faces"),
          .object "fold"]
        ++ positions.map (fun p => .position p.x p.y p.z) ++ faces.map .face) ∧
      Describes fold positions faces := by
  have hcoordinate : ∀ p ∈ fold.positions, ∀ x ∈ p.toList, x = 0 ∨ x = -0 ∨ x = 1 := by
    simp [fold, Mesh.positions, Vec3.toList, Polygon.ofVertices]
  have hvalue : ∀ x : Double, x = 0 ∨ x = -0 ∨ x = 1 →
      x.isFinite = true ∧ foldNumber? (Layout.plain.text x.reading) = some x := by
    have h0 : (0 : Double).isFinite = true ∧ Layout.plain.text (0 : Double).reading = "0" := by
      decide +kernel
    have h1 : (-0 : Double).isFinite = true ∧ Layout.plain.text (-0 : Double).reading = "-0" := by
      decide +kernel
    have h2 : (1 : Double).isFinite = true ∧ Layout.plain.text (1 : Double).reading = "1" := by
      decide +kernel
    intro x hx
    rcases hx with rfl | rfl | rfl
    · exact ⟨h0.1, by rw [h0.2]; rfl⟩
    · exact ⟨h1.1, by rw [h1.2]; rfl⟩
    · exact ⟨h2.1, by rw [h2.2]; rfl⟩
  exact exists_read?_describes (by decide) (fun p hp x hx => (hvalue x (hcoordinate p hp x hx)).1)
    fun p hp x hx => (hvalue x (hcoordinate p hp x hx)).2

end Solids.Obj
