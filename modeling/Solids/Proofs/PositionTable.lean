import Mathlib
import Solids.Export.Obj
/-!
# Solids.Proofs.PositionTable

**Which positions an OBJ file lists, and how its faces refer to them.** The numbers are those of
first use: a position that was used before is referred to by the number it has, any other one gets
the next number. So what a face says follows from the list of all positions used, in order, and from
nothing else about the table.

Main definitions:

* `firstUse` — the number of an item by when it is used first;
* `Obj.outlines` — the positions of the corners of the polygons that are faces;
* `PositionTable.Holds` — a table in which some positions have been looked up.

Main statement: `Obj.faces_spec`.
-/

namespace Solids

/-! ### Numbers by first use -/

section FirstUse

variable {α β : Type} [BEq α] [LawfulBEq α] [BEq β] [LawfulBEq β] {used : List α} {a b : α}

theorem eraseDups_concat (used : List α) (a : α) :
    (used ++ [a]).eraseDups = if a ∈ used then used.eraseDups else used.eraseDups ++ [a] := by
  rw [List.eraseDups_append]
  split
  · next h => simp [List.removeAll, h]
  · next h => simp [List.removeAll, h, List.eraseDups_cons]

theorem nodup_eraseDups (used : List α) : used.eraseDups.Nodup := by
  induction used using List.reverseRecOn with
  | nil => exact List.nodup_nil
  | append_singleton used a ih =>
    rw [eraseDups_concat]
    split
    · exact ih
    · next h => exact List.concat_eq_append ▸ ih.concat (mt List.mem_eraseDups.mp h)

theorem eraseDups_map {f : α → β} (hf : ∀ a ∈ used, ∀ b ∈ used, f a = f b → a = b) :
    (used.map f).eraseDups = used.eraseDups.map f := by
  induction used using List.reverseRecOn with
  | nil => rfl
  | append_singleton used a ih =>
    have ih := ih fun a ha b hb => hf a (List.mem_append_left _ ha) b (List.mem_append_left _ hb)
    have hmem : f a ∈ used.map f ↔ a ∈ used := by
      refine ⟨fun h => ?_, List.mem_map_of_mem⟩
      obtain ⟨b, hb, heq⟩ := List.mem_map.mp h
      rwa [← hf b (List.mem_append_left _ hb) a (by simp) heq]
    rw [List.map_append, List.map_singleton, eraseDups_concat, eraseDups_concat, ih]
    by_cases h : a ∈ used <;> simp [hmem, h]

/-- The number of an item, by when it is used first. Numbers begin with one. -/
def firstUse (used : List α) (a : α) : ℕ := used.eraseDups.idxOf a + 1

/-- Later uses do not matter. -/
theorem firstUse_append_of_mem (h : a ∈ used) (later : List α) :
    firstUse (used ++ later) a = firstUse used a := by
  rw [firstUse, List.eraseDups_append, List.idxOf_append_of_mem (List.mem_eraseDups.mpr h),
    firstUse]

/-- What was not used before gets the next number. -/
theorem firstUse_concat_of_not_mem (h : a ∉ used) :
    firstUse (used ++ [a]) a = used.eraseDups.length + 1 := by
  rw [firstUse, eraseDups_concat, if_neg h,
    List.idxOf_append_of_notMem (mt List.mem_eraseDups.mp h), List.idxOf_cons_self, Nat.add_zero]

theorem firstUse_le (h : a ∈ used) : firstUse used a ≤ used.eraseDups.length :=
  List.idxOf_lt_length_iff.mpr (List.mem_eraseDups.mpr h)

theorem getElem?_firstUse (h : a ∈ used) : used.eraseDups[firstUse used a - 1]? = some a := by
  rw [firstUse, Nat.add_sub_cancel, List.getElem?_eq_getElem (firstUse_le h)]
  exact congrArg some (List.getElem_idxOf _)

theorem firstUse_inj (ha : a ∈ used) (hb : b ∈ used) (h : firstUse used a = firstUse used b) :
    a = b := by
  have hget := getElem?_firstUse ha
  rw [h, getElem?_firstUse hb] at hget
  exact (Option.some.inj hget).symm

/-- The numbers are used in order, and all of them are. -/
theorem eraseDups_map_firstUse (used : List α) :
    (used.map (firstUse used)).eraseDups = List.range' 1 used.eraseDups.length := by
  rw [eraseDups_map fun a ha b hb => firstUse_inj ha hb]
  refine List.ext_getElem (by simp) fun i h _ => ?_
  rw [List.length_map] at h
  rw [List.getElem_map, List.getElem_range', firstUse, (nodup_eraseDups used).idxOf_getElem]
  omega

end FirstUse

/-! ### The table -/

namespace Obj

variable {t : PositionTable} {used : List (Vec3 Double)}

/-- The numbers of some positions by when they are used first. -/
def numbered (used : List (Vec3 Double)) (outline : List (Vec3 Double)) : List ℕ :=
  outline.map fun p => firstUse (used.map key) (key p)

/-- In the table the positions `used` have been looked up, in this order. -/
structure PositionTable.Holds (t : PositionTable) (used : List (Vec3 Double)) : Prop where
  /-- The positions are there by their first uses. -/
  keys_eq : t.positions.toList.map key = (used.map key).eraseDups
  /-- They are among those looked up. -/
  mem_used : ∀ p ∈ t.positions.toList, p ∈ used
  /-- They have the numbers of first use. -/
  numbers_eq : ∀ k, t.numbers[k]? =
    if k ∈ used.map key then some (firstUse (used.map key) k) else none

namespace PositionTable

theorem holds_empty : Holds {} [] := ⟨rfl, by simp, by simp⟩

/-- Looking up a position. -/
theorem Holds.number (h : t.Holds used) (p : Vec3 Double) : (t.number p).1.Holds (used ++ [p]) ∧
    (t.number p).2 = firstUse ((used ++ [p]).map key) (key p) := by
  have hlookup := h.numbers_eq (key p)
  rw [List.map_append, List.map_singleton]
  by_cases hmem : key p ∈ used.map key
  · rw [if_pos hmem] at hlookup
    simp only [PositionTable.number, hlookup]
    rw [firstUse_append_of_mem hmem]
    refine ⟨⟨?_, fun q hq => List.mem_append_left _ (h.mem_used q hq), fun k => ?_⟩, rfl⟩
    · rw [List.map_append, List.map_singleton, eraseDups_concat, if_pos hmem, h.keys_eq]
    · rw [h.numbers_eq, List.map_append, List.map_singleton]
      by_cases hk : k ∈ used.map key
      · rw [if_pos hk, if_pos (List.mem_append_left _ hk), firstUse_append_of_mem hk]
      · have hne : k ≠ key p := fun heq => hk (heq ▸ hmem)
        rw [if_neg hk, if_neg (by simp [hk, hne])]
  · rw [if_neg hmem] at hlookup
    have hsize : t.positions.size = (used.map key).eraseDups.length := by
      rw [← h.keys_eq, List.length_map, Array.length_toList]
    simp only [PositionTable.number, hlookup]
    rw [firstUse_concat_of_not_mem hmem, ← hsize]
    refine ⟨⟨?_, fun q hq => ?_, fun k => ?_⟩, rfl⟩
    · rw [List.map_append, List.map_singleton, eraseDups_concat, if_neg hmem, Array.toList_push,
        List.map_append, h.keys_eq, List.map_singleton]
    · rw [Array.toList_push, List.mem_append] at hq
      exact List.mem_append.mpr (hq.imp_left (h.mem_used q))
    · rw [Std.HashMap.getElem?_insert, h.numbers_eq, List.map_append, List.map_singleton]
      by_cases hkey : key p = k
      · subst hkey
        rw [if_pos (by simp), if_pos (by simp), firstUse_concat_of_not_mem hmem, hsize]
      · rw [if_neg (by simpa using hkey)]
        by_cases hk : k ∈ used.map key
        · rw [if_pos hk, if_pos (List.mem_append_left _ hk), firstUse_append_of_mem hk]
        · rw [if_neg hk, if_neg (by simp [hk, Ne.symm hkey])]

/-- Looking up some positions. -/
theorem Holds.numberOnto (h : t.Holds used) (done : List ℕ) (ps : List (Vec3 Double)) :
    (t.numberOnto done ps).1.Holds (used ++ ps) ∧
      (t.numberOnto done ps).2 = (numbered (used ++ ps) ps).reverse ++ done := by
  induction ps generalizing t used done with
  | nil => exact ⟨by rwa [List.append_nil], rfl⟩
  | cons p ps ih =>
    obtain ⟨hholds, hnumber⟩ := h.number p
    have hmem : key p ∈ (used ++ [p]).map key := List.mem_map_of_mem (by simp)
    have hlater : firstUse ((used ++ p :: ps).map key) (key p)
        = firstUse ((used ++ [p]).map key) (key p) := by
      rw [← firstUse_append_of_mem hmem (ps.map key), ← List.map_append, List.append_assoc,
        List.singleton_append]
    obtain ⟨hholds, hnumbers⟩ := ih hholds ((t.number p).2 :: done)
    rw [List.append_assoc, List.singleton_append] at hholds hnumbers
    refine ⟨hholds, hnumbers.trans ?_⟩
    rw [hnumber, ← hlater, numbered, numbered, List.map_cons, List.reverse_cons, List.append_assoc,
      List.singleton_append]

theorem Holds.numberAll (h : t.Holds used) (ps : List (Vec3 Double)) :
    (t.numberAll ps).1.Holds (used ++ ps) ∧ (t.numberAll ps).2 = numbered (used ++ ps) ps := by
  obtain ⟨hholds, hnumbers⟩ := h.numberOnto [] ps
  refine ⟨hholds, ?_⟩
  show (t.numberOnto [] ps).2.reverse = _
  rw [hnumbers, List.append_nil, List.reverse_reverse]

end PositionTable

/-! ### The faces -/

/-- The positions of the corners, face by face. -/
def outlines (polygons : List (Polygon Double)) : List (List (Vec3 Double)) :=
  (polygons.filter fun q => 3 ≤ q.vertices.length).map fun q => q.vertices.map Vertex.pos

theorem three_le_of_mem_outlines {polygons : List (Polygon Double)} :
    ∀ outline ∈ outlines polygons, 3 ≤ outline.length := by
  intro outline h
  obtain ⟨q, hq, rfl⟩ := List.mem_map.mp h
  rw [List.length_map]
  exact of_decide_eq_true (List.mem_filter.mp hq).2

/-- Numbers stay what they are when more is used later. -/
theorem numbered_append {outline later : List (Vec3 Double)} (h : ∀ p ∈ outline, p ∈ used) :
    numbered (used ++ later) outline = numbered used outline := by
  refine List.map_congr_left fun p hp => ?_
  rw [List.map_append, firstUse_append_of_mem (List.mem_map_of_mem (h p hp))]

theorem facesOnto_spec (h : t.Holds used) (done : List (List ℕ))
    (polygons : List (Polygon Double)) :
    (facesOnto t done polygons).1.Holds (used ++ (outlines polygons).flatten) ∧
      (facesOnto t done polygons).2 = ((outlines polygons).map
        (numbered (used ++ (outlines polygons).flatten))).reverse ++ done := by
  induction polygons generalizing t used done with
  | nil =>
    refine ⟨?_, rfl⟩
    rwa [outlines, List.filter_nil, List.map_nil, List.flatten_nil, List.append_nil]
  | cons q polygons ih =>
    rw [facesOnto]
    by_cases hfew : q.vertices.length < 3
    · have houtlines : outlines (q :: polygons) = outlines polygons := by
        rw [outlines, List.filter_cons_of_neg (by simpa using hfew), outlines]
      rw [if_pos hfew, houtlines]
      exact ih h done
    · have houtlines : outlines (q :: polygons)
          = q.vertices.map Vertex.pos :: outlines polygons := by
        rw [outlines, List.filter_cons_of_pos (by simpa using hfew), List.map_cons, outlines]
      obtain ⟨hholds, hnumbers⟩ := h.numberAll (q.vertices.map Vertex.pos)
      obtain ⟨hholds, hfaces⟩ :=
        ih hholds ((t.numberAll (q.vertices.map Vertex.pos)).2 :: done)
      rw [if_neg hfew, houtlines, List.flatten_cons, ← List.append_assoc]
      refine ⟨hholds, hfaces.trans ?_⟩
      rw [hnumbers, List.map_cons, List.reverse_cons, List.append_cons,
        numbered_append fun p hp => List.mem_append_right _ hp]

/-- What an OBJ file lists: the positions by their first uses, and faces that refer to them by the
numbers of first use. -/
theorem faces_spec (m : Mesh Double) :
    (faces m).1.map key = ((outlines m.polygons).flatten.map key).eraseDups ∧
      (∀ p ∈ (faces m).1, p ∈ (outlines m.polygons).flatten) ∧
      (faces m).2 = (outlines m.polygons).map (numbered (outlines m.polygons).flatten) := by
  obtain ⟨hholds, hfaces⟩ := facesOnto_spec PositionTable.holds_empty [] m.polygons
  rw [List.nil_append, List.append_nil] at *
  refine ⟨hholds.keys_eq, hholds.mem_used, ?_⟩
  show (facesOnto {} [] m.polygons).2.reverse = _
  rw [hfaces, List.reverse_reverse]

end Obj

end Solids
