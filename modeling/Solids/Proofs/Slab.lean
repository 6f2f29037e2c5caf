import Solids.Proofs.Chain
import Solids.Proofs.Cuboid
/-!
# Solids.Proofs.Slab

**Boxes that are flat.** If a box is not deeper than the tolerance in some direction, a
face across that direction has all the others on its plane, and the tree of the box is a
single node.

Main statements:

* `Facing.thick_or_flat` — a box with a large face is deep in every direction, or has a
  large face that it is not deep behind;
* `Facing.splitter_on` — such a face decides which plane is chosen;
* `Mesh.exists_levels_cuboidFaces` — which boxes have a tree.
-/

namespace Solids

/-! ### The cost of a plane -/

namespace Tree

variable {eps : ℝ} {p : Plane ℝ} {l : List (Polygon ℝ)}

/-- A plane costs nothing if it cuts nothing and has as much in front of it as behind. -/
theorem cost_eq_zero_iff : (tally eps p l).cost = 0 ↔
    (∀ q ∈ l, p.sideOfPolygon eps q ≠ .across) ∧
      l.countP (p.sideOfPolygon eps · = .front) = l.countP (p.sideOfPolygon eps · = .back) := by
  rw [tally_eq, Tally.cost]
  simp only [Nat.add_eq_zero_iff, Nat.mul_eq_zero, OfNat.ofNat_ne_zero, false_or,
    List.countP_eq_zero, decide_eq_true_eq]
  refine and_congr_right fun _ => ?_
  omega

theorem cost_eq_zero_of_on (h : ∀ q ∈ l, p.sideOfPolygon eps q = .on) :
    (tally eps p l).cost = 0 := by
  rw [cost_eq_zero_iff]
  refine ⟨fun q hq => by simp [h q hq], ?_⟩
  rw [List.countP_eq_zero.mpr fun q hq => by simp [h q hq],
    List.countP_eq_zero.mpr fun q hq => by simp [h q hq]]

/-- If one of the candidates has all polygons on its plane, the plane that is chosen costs
nothing. -/
theorem exists_splitter_of_on {first q : Polygon ℝ} {rest : List (Polygon ℝ)}
    (hq : q ∈ first :: rest.take (candidateLimit - 1))
    (h : ∀ r ∈ first :: rest, q.plane.sideOfPolygon eps r = .on) :
    ∃ r ∈ first :: rest, splitter eps first rest = r.plane ∧
      (tally eps r.plane (first :: rest)).cost = 0 := by
  obtain ⟨hmem, hle⟩ := cheapest_spec
    (fun q : Polygon ℝ => (tally eps q.plane (first :: rest)).cost) first
    (rest.take (candidateLimit - 1))
  refine ⟨_, List.cons_subset_cons first (List.take_subset _ _) hmem, rfl, ?_⟩
  exact Nat.le_zero.mp ((hle q hq).trans_eq (cost_eq_zero_of_on h))

/-- One of the polygons reaches from the lowest of all corners to the highest. -/
def IsUpright (l : List (Polygon ℝ)) : Prop :=
  ∃ q ∈ l, ∃ x ∈ q.corners, ∃ y ∈ q.corners, ∀ r ∈ l, ∀ z ∈ r.corners, x.z ≤ z.z ∧ z.z ≤ y.z

/-- The ground plane does not cost nothing with a polygon in front of it: another one would
be behind it, and an upright one across it. -/
theorem IsUpright.not_front_ground (heps : 0 ≤ eps) (hupright : IsUpright l)
    (hcost : (tally eps Plane.ground l).cost = 0) :
    ∀ q ∈ l, Plane.ground.sideOfPolygon eps q ≠ .front := by
  obtain ⟨hacross, hbalance⟩ := cost_eq_zero_iff.mp hcost
  intro q hq hside
  have hcount : 0 < l.countP (Plane.ground.sideOfPolygon eps · = .front) :=
    List.countP_pos_iff.mpr ⟨q, hq, by simpa using hside⟩
  rw [hbalance, List.countP_pos_iff] at hcount
  obtain ⟨r, hr, hside'⟩ := hcount
  obtain ⟨u, hu, hup⟩ := (Plane.sideOfPolygon_eq_front.mp hside).2
  obtain ⟨v, hv, hdown⟩ := ((Plane.sideOfPolygon_eq_back heps).mp (by simpa using hside')).2
  obtain ⟨w, hw, x, hx, y, hy, hbetween⟩ := hupright
  have hlow := (hbetween r hr v hv).1
  have hhigh := (hbetween q hq u hu).2
  rw [Plane.ground_signedDistance] at hup hdown
  refine hacross w hw (Plane.sideOfPolygon_eq_across.mpr ⟨⟨y, hy, ?_⟩, x, hx, ?_⟩)
  · rw [Plane.sideOf_eq_front heps, Plane.ground_signedDistance]
    linarith
  · rw [Plane.sideOf_eq_back, Plane.ground_signedDistance]
    linarith

/-- A plane that costs nothing, and has nothing in front of it unless it is the ground
plane, has all polygons on it. -/
theorem IsUpright.on_of_cost (heps : 0 ≤ eps) (hupright : IsUpright l)
    (hplane : p = Plane.ground ∨ ∀ q ∈ l, p.sideOfPolygon eps q ≠ .front)
    (hcost : (tally eps p l).cost = 0) : ∀ q ∈ l, p.sideOfPolygon eps q = .on := by
  have hfront : ∀ q ∈ l, p.sideOfPolygon eps q ≠ .front := by
    rcases hplane with rfl | hfront
    · exact hupright.not_front_ground heps hcost
    · exact hfront
  obtain ⟨hacross, hbalance⟩ := cost_eq_zero_iff.mp hcost
  have hback : ∀ q ∈ l, p.sideOfPolygon eps q ≠ .back := by
    rw [List.countP_eq_zero.mpr fun q hq => by simpa using hfront q hq, eq_comm,
      List.countP_eq_zero] at hbalance
    simpa using hbalance
  intro q hq
  cases h : p.sideOfPolygon eps q with
  | on => rfl
  | front => exact absurd h (hfront q hq)
  | back => exact absurd h (hback q hq)
  | across => exact absurd h (hacross q hq)

/-- A candidate with all polygons on its plane decides which plane is chosen, and the tree
is a single node. -/
theorem IsUpright.insert_of_on (heps : 0 ≤ eps) {first q : Polygon ℝ} {rest : List (Polygon ℝ)}
    (hupright : IsUpright (first :: rest))
    (hplanes : ∀ r ∈ first :: rest, r.plane = Plane.ground ∨
      ∀ s ∈ first :: rest, r.plane.sideOfPolygon eps s ≠ .front)
    (hq : q ∈ first :: rest.take (candidateLimit - 1))
    (hon : ∀ r ∈ first :: rest, q.plane.sideOfPolygon eps r = .on) :
    ∃ r ∈ first :: rest, (∀ s ∈ first :: rest, r.plane.sideOfPolygon eps s = .on) ∧
      ∀ levels, absent.insert eps (levels + 1) (first :: rest)
        = some (node (some r.plane) (first :: rest) absent absent) := by
  obtain ⟨r, hr, hsplitter, hcost⟩ := exists_splitter_of_on hq hon
  have hall := hupright.on_of_cost heps (hplanes r hr) hcost
  refine ⟨r, hr, hall, fun levels => ?_⟩
  rw [← hsplitter] at hall ⊢
  exact insert_eq_of_splitter levels hall

end Tree

/-! ### Boxes -/

namespace Facing

variable {o size : Vec3 ℝ} {eps : ℝ} {d : Facing}

/-- Two edges that are short beside a long one span a small face. -/
theorem two_mul_le {x y z : ℝ} (heps : 0 < eps) (hsquare : Scalar.epsilon ≤ 2 * (eps * eps))
    (hx : 0 < x) (hy : 0 < y) (hz : eps < z) (hyz : 2 * (y * z) ≤ Scalar.epsilon)
    (hzx : 2 * (z * x) ≤ Scalar.epsilon) : 2 * (x * y) ≤ Scalar.epsilon := by
  have hpos : (0 : ℝ) < Scalar.epsilon := Scalar.epsilon_pos
  have hz₀ : 0 < z := heps.trans hz
  have hprod : 2 * (y * z) * (2 * (z * x)) ≤ Scalar.epsilon * Scalar.epsilon :=
    mul_le_mul hyz hzx (by positivity) hpos.le
  have hshort : 2 * (eps * eps) * (2 * (x * y)) ≤ 2 * (y * z) * (2 * (z * x)) := by
    have hsq : eps * eps ≤ z * z := mul_self_le_mul_self heps.le hz.le
    calc 2 * (eps * eps) * (2 * (x * y)) ≤ 2 * (z * z) * (2 * (x * y)) := by gcongr
      _ = 2 * (y * z) * (2 * (z * x)) := by ring
  have hlong : Scalar.epsilon * (2 * (x * y)) ≤ 2 * (eps * eps) * (2 * (x * y)) := by gcongr
  exact le_of_mul_le_mul_left (hlong.trans (hshort.trans hprod)) hpos

/-- If the long edges of a flat box do not span a large face, no face is large. -/
theorem two_mul_le_of_flat {x y z : ℝ} (heps : 0 < eps)
    (hsquare : Scalar.epsilon ≤ 2 * (eps * eps)) (hx : 0 < x) (hy : 0 < y) (hz : 0 < z)
    (hflatX : x ≤ eps → 2 * (y * z) ≤ Scalar.epsilon)
    (hflatY : y ≤ eps → 2 * (z * x) ≤ Scalar.epsilon)
    (hflatZ : z ≤ eps → 2 * (x * y) ≤ Scalar.epsilon) (hthin : x ≤ eps) :
    2 * (x * y) ≤ Scalar.epsilon ∧ 2 * (y * z) ≤ Scalar.epsilon ∧
      2 * (z * x) ≤ Scalar.epsilon := by
  have hyz := hflatX hthin
  rcases le_or_gt y eps with hy' | hy'
  · rcases le_or_gt z eps with hz' | hz'
    · exact ⟨hflatZ hz', hyz, hflatY hy'⟩
    · exact ⟨two_mul_le heps hsquare hx hy hz' hyz (hflatY hy'), hyz, hflatY hy'⟩
  · have hz' : z ≤ eps := by
      by_contra h
      have hmul : eps * eps < y * z := mul_lt_mul'' hy' (not_le.mp h) heps.le heps.le
      linarith
    have hxy := hflatZ hz'
    exact ⟨hxy, hyz, two_mul_le heps hsquare hz hx hy' hxy hyz⟩

/-- A box that has a large face is deep in every direction, or has a large face that it
is not deep behind. -/
theorem thick_or_flat (heps : 0 < eps) (hsquare : Scalar.epsilon ≤ 2 * (eps * eps))
    (hsize : 0 < size.x ∧ 0 < size.y ∧ 0 < size.z)
    (hlarge : Scalar.epsilon < d.doubledArea size) :
    (∀ d : Facing, eps < d.depth size) ∨
      ∃ d : Facing, Scalar.epsilon < d.doubledArea size ∧ d.depth size ≤ eps := by
  obtain ⟨hx, hy, hz⟩ := hsize
  by_contra hnone
  simp only [not_or, not_exists, not_and, not_forall, not_lt] at hnone
  obtain ⟨⟨d', hthin⟩, hflat⟩ := hnone
  have hsmall : ∀ d : Facing, d.depth size ≤ eps → d.doubledArea size ≤ Scalar.epsilon :=
    fun d hd => not_lt.mp fun h => hflat d h hd
  have hX := hsmall left
  have hY := hsmall front
  have hZ := hsmall down
  simp only [depth, doubledArea] at hX hY hZ
  have hall : 2 * (size.x * size.y) ≤ Scalar.epsilon ∧ 2 * (size.y * size.z) ≤ Scalar.epsilon ∧
      2 * (size.z * size.x) ≤ Scalar.epsilon := by
    cases d' with
    | left | right => exact two_mul_le_of_flat heps hsquare hx hy hz hX hY hZ hthin
    | front | back =>
      obtain ⟨h, h', h''⟩ := two_mul_le_of_flat heps hsquare hy hz hx hY hZ hX hthin
      exact ⟨h'', h, h'⟩
    | down | up =>
      obtain ⟨h, h', h''⟩ := two_mul_le_of_flat heps hsquare hz hx hy hZ hX hY hthin
      exact ⟨h', h'', h⟩
  obtain ⟨h, h', h''⟩ := hall
  cases d <;> simp only [doubledArea] at hlarge <;> linarith

/-- The side faces of a box reach from the lowest of its corners to the highest. -/
theorem isUpright_cuboidFaces (h₀ : 0 ≤ size.x ∧ 0 ≤ size.y ∧ 0 ≤ size.z) :
    Tree.IsUpright (Mesh.cuboidFaces o size) := by
  refine ⟨face o size front, mem_cuboidFaces.mpr ⟨front, rfl⟩, o + ⟨0, 0, 0⟩, by simp [corners],
    o + ⟨0, 0, size.z⟩, by simp [corners], fun r hr z hz => ?_⟩
  obtain ⟨d, rfl⟩ := mem_cuboidFaces.mp hr
  rw [face_corners] at hz
  simpa using (near_of_mem_corners h₀ hz).z_mem

/-- A face carries the ground plane, or has nothing in front of it. -/
theorem plane_eq_ground_or_not_front (heps : 0 ≤ eps)
    (h₀ : 0 ≤ size.x ∧ 0 ≤ size.y ∧ 0 ≤ size.z) (d : Facing) :
    (face o size d).plane = Plane.ground ∨
      ∀ q ∈ Mesh.cuboidFaces o size, (face o size d).plane.sideOfPolygon eps q ≠ .front := by
  rcases lt_or_ge Scalar.epsilon (d.doubledArea size) with hlarge | hsmall
  · refine .inr fun q hq hside => ?_
    rw [face_plane hlarge, Plane.sideOfPolygon_eq_front] at hside
    obtain ⟨d', rfl⟩ := mem_cuboidFaces.mp hq
    obtain ⟨x, hx, hlt⟩ := hside.2
    rw [face_corners] at hx
    exact hlt.not_ge (near_iff.mp ((near_of_mem_corners h₀ hx).mono heps) d)
  · exact .inl (face_plane_of_le h₀ hsmall)

/-- A large face that the box is not deep behind decides which plane is chosen, and the
tree of the box is a single node. -/
theorem insert_of_flat (heps : 0 ≤ eps) (h₀ : 0 ≤ size.x ∧ 0 ≤ size.y ∧ 0 ≤ size.z)
    (hlarge : Scalar.epsilon < d.doubledArea size) (hflat : d.depth size ≤ eps) :
    ∃ d', (∀ q ∈ Mesh.cuboidFaces o size, (face o size d').plane.sideOfPolygon eps q = .on) ∧
      ∀ levels, Tree.absent.insert eps (levels + 1) (Mesh.cuboidFaces o size)
        = some (.node (some (face o size d').plane) (Mesh.cuboidFaces o size) .absent .absent) := by
  have hon : ∀ q ∈ Mesh.cuboidFaces o size, (face o size d).plane.sideOfPolygon eps q = .on := by
    intro q hq
    obtain ⟨d', rfl⟩ := mem_cuboidFaces.mp hq
    rw [face_plane hlarge]
    exact sideOfPolygon_face_of_depth_le heps h₀ hflat d'
  have hplanes : ∀ r ∈ Mesh.cuboidFaces o size, r.plane = Plane.ground ∨
      ∀ q ∈ Mesh.cuboidFaces o size, r.plane.sideOfPolygon eps q ≠ .front := by
    intro r hr
    obtain ⟨d', rfl⟩ := mem_cuboidFaces.mp hr
    exact plane_eq_ground_or_not_front heps h₀ d'
  -- all six faces are candidates
  obtain ⟨r, hr, hall, hinsert⟩ := (isUpright_cuboidFaces h₀).insert_of_on heps hplanes
    (mem_cuboidFaces.mpr ⟨d, rfl⟩) hon
  obtain ⟨d', rfl⟩ := mem_cuboidFaces.mp hr
  exact ⟨d', hall, hinsert⟩

/-- Large or not, a face carries a plane across one of the directions. -/
theorem exists_face_normal_eq (h₀ : 0 ≤ size.x ∧ 0 ≤ size.y ∧ 0 ≤ size.z) (d : Facing) :
    ∃ e : Facing, (face o size d).plane.normal = e.normal := by
  rcases lt_or_ge Scalar.epsilon (d.doubledArea size) with hlarge | hsmall
  · exact ⟨d, by rw [face_plane hlarge, plane_normal]⟩
  · exact ⟨up, by rw [face_plane_of_le h₀ hsmall]; rfl⟩

section Thick

variable (heps : 0 ≤ eps) (hsquare : Scalar.epsilon ≤ 2 * (eps * eps))
  (h₀ : 0 ≤ size.x ∧ 0 ≤ size.y ∧ 0 ≤ size.z) (hthick : ∀ d : Facing, eps < d.depth size)

include heps hsquare hthick

/-- The faces of a box that is deep in every direction are large. -/
theorem lt_doubledArea_of_thick (d : Facing) : Scalar.epsilon < d.doubledArea size := by
  have hx : eps < size.x := hthick left
  have hy : eps < size.y := hthick front
  have hz : eps < size.z := hthick down
  have harea : ∀ {u v : ℝ}, eps < u → eps < v → Scalar.epsilon < 2 * (u * v) := by
    intro u v hu hv
    have hmul : eps * eps < u * v := mul_lt_mul'' hu hv heps heps
    linarith
  cases d <;> simp only [doubledArea] <;> apply harea <;> assumption

theorem face_plane_of_thick (o : Vec3 ℝ) (d : Facing) : (face o size d).plane = d.plane o size :=
  face_plane (lt_doubledArea_of_thick heps hsquare hthick d)

include h₀

/-- The faces of a box that is deep in every direction are a hull. -/
theorem isHull_of_thick : Tree.IsHull eps (Mesh.cuboidFaces o size) := by
  have hplane := face_plane_of_thick heps hsquare hthick o
  refine ⟨fun q hq => ?_, fun q hq r hr hne => ?_⟩
  · obtain ⟨d, rfl⟩ := mem_cuboidFaces.mp hq
    rw [hplane]
    exact sideOfPolygon_face_self heps
  · obtain ⟨d, rfl⟩ := mem_cuboidFaces.mp hq
    obtain ⟨d', rfl⟩ := mem_cuboidFaces.mp hr
    rw [hplane]
    exact sideOfPolygon_face_of_ne heps h₀ (hthick d) fun h => hne (by rw [h])

/-- The faces of a box that is deep in every direction fit their planes. -/
theorem fits_of_thick : ∀ q ∈ Mesh.cuboidFaces o size, q.Fits eps := by
  intro q hq
  obtain ⟨d, rfl⟩ := mem_cuboidFaces.mp hq
  have hlarge := lt_doubledArea_of_thick heps hsquare hthick d
  exact ((Mesh.isFace_of_mem_cuboidFaces hq).isFlat ((isLarge_face h₀).mpr hlarge)).fits heps

end Thick

end Facing

namespace Mesh

variable {o size : Vec3 ℝ} {eps : ℝ}

/-- A box has a tree if it has a large face, or is within the tolerance of the ground. -/
theorem exists_levels_cuboidFaces (heps : Scalar.epsilon ≤ eps)
    (hsquare : Scalar.epsilon ≤ 2 * (eps * eps)) (hsize : 0 < size.x ∧ 0 < size.y ∧ 0 < size.z) :
    (∃ levels, (Tree.absent.insert eps levels (cuboidFaces o size)).isSome) ↔
      (∃ q ∈ cuboidFaces o size, q.IsLarge) ∨
        ∀ q ∈ cuboidFaces o size, Plane.ground.sideOfPolygon eps q = .on := by
  have hpos : 0 < eps := Scalar.epsilon_pos.trans_le heps
  have h₀ : 0 ≤ size.x ∧ 0 ≤ size.y ∧ 0 ≤ size.z := ⟨hsize.1.le, hsize.2.1.le, hsize.2.2.le⟩
  by_cases hlarge : ∃ q ∈ cuboidFaces o size, q.IsLarge
  · refine iff_of_true ?_ (.inl hlarge)
    obtain ⟨q, hq, hlarge⟩ := hlarge
    obtain ⟨d, rfl⟩ := Facing.mem_cuboidFaces.mp hq
    rcases Facing.thick_or_flat hpos hsquare hsize ((Facing.isLarge_face h₀).mp hlarge) with
      hthick | ⟨d', hlarge', hflat⟩
    · obtain ⟨t, ht, -⟩ := Tree.exists_ofPolygons heps (List.ne_nil_of_mem hq)
        (Facing.fits_of_thick hpos.le hsquare h₀ hthick) le_rfl
      rw [Tree.ofPolygons_eq (List.ne_nil_of_mem hq)] at ht
      exact ⟨_, Option.isSome_iff_exists.mpr ⟨t, ht⟩⟩
    · obtain ⟨_, -, ht⟩ := Facing.insert_of_flat (o := o) hpos.le h₀ hlarge' hflat
      exact ⟨1, Option.isSome_iff_exists.mpr ⟨_, ht 0⟩⟩
  · have hground : ∀ q ∈ cuboidFaces o size, q.plane = Plane.ground := fun q hq =>
      (isFace_of_mem_cuboidFaces hq).plane_eq_ground fun h => hlarge ⟨q, hq, h⟩
    rw [Tree.exists_levels_iff_of_plane_eq heps hground, or_iff_right hlarge]

/-- A box that has a tree, but is not deep in every direction, has a single node for a
tree, with the plane of one of its faces. -/
theorem insert_cuboidFaces_of_not_thick (heps : Scalar.epsilon ≤ eps)
    (hsquare : Scalar.epsilon ≤ 2 * (eps * eps)) (hsize : 0 < size.x ∧ 0 < size.y ∧ 0 < size.z)
    (hthin : ¬ ∀ d : Facing, eps < d.depth size)
    (htree : ∃ levels, (Tree.absent.insert eps levels (cuboidFaces o size)).isSome) :
    ∃ d, (∀ q ∈ cuboidFaces o size, (Facing.face o size d).plane.sideOfPolygon eps q = .on) ∧
      ∀ levels, Tree.absent.insert eps (levels + 1) (cuboidFaces o size) = some
        (.node (some (Facing.face o size d).plane) (cuboidFaces o size) .absent .absent) := by
  have hpos : 0 < eps := Scalar.epsilon_pos.trans_le heps
  have h₀ : 0 ≤ size.x ∧ 0 ≤ size.y ∧ 0 ≤ size.z := ⟨hsize.1.le, hsize.2.1.le, hsize.2.2.le⟩
  by_cases hlarge : ∃ q ∈ cuboidFaces o size, q.IsLarge
  · obtain ⟨q, hq, hlarge⟩ := hlarge
    obtain ⟨d, rfl⟩ := Facing.mem_cuboidFaces.mp hq
    obtain ⟨d', hlarge', hflat⟩ := (Facing.thick_or_flat hpos hsquare hsize
      ((Facing.isLarge_face h₀).mp hlarge)).resolve_left hthin
    exact Facing.insert_of_flat hpos.le h₀ hlarge' hflat
  · have hground : ∀ q ∈ cuboidFaces o size, q.plane = Plane.ground := fun q hq =>
      (isFace_of_mem_cuboidFaces hq).plane_eq_ground fun h => hlarge ⟨q, hq, h⟩
    rw [Tree.exists_levels_iff_of_plane_eq heps hground] at htree
    have hmem : ∀ d, Facing.face o size d ∈ cuboidFaces o size :=
      fun d => Facing.mem_cuboidFaces.mpr ⟨d, rfl⟩
    refine ⟨.down, ?_, fun levels => ?_⟩
    · rw [hground _ (hmem .down)]
      exact htree
    · obtain ⟨first, rest, hfaces⟩ := List.exists_cons_of_ne_nil (List.ne_nil_of_mem (hmem .down))
      rw [hground _ (hmem .down)]
      rw [hfaces] at hground htree ⊢
      have hsplitter : Tree.splitter eps first rest = Plane.ground :=
        Tree.splitter_eq_of_plane_eq hground
      rw [← hsplitter] at htree ⊢
      exact Tree.insert_eq_of_splitter levels htree

/-! ### The default tolerance -/

/-- The tolerance in use unless another one is chosen. -/
noncomputable def tolerance : ℝ := (Settings.default : Settings ℝ).tolerance

theorem tolerance_eq : tolerance = 1 / 100000 := by simp [tolerance, Settings.default]

theorem epsilon_le_tolerance : Scalar.epsilon ≤ tolerance := by
  rw [tolerance_eq, Scalar.epsilon_real]
  norm_num

theorem epsilon_le_two_mul_tolerance : Scalar.epsilon ≤ 2 * (tolerance * tolerance) := by
  rw [tolerance_eq, Scalar.epsilon_real]
  norm_num

theorem tolerance_pos : 0 < tolerance := Scalar.epsilon_pos.trans_le epsilon_le_tolerance

theorem tolerance_nonneg : 0 ≤ tolerance := tolerance_pos.le

theorem tolerance_lt_one : tolerance < 1 := by
  rw [tolerance_eq]
  norm_num

/-- Cubes that are larger than the tolerance have faces that fit their planes. -/
theorem fits_of_mem_cube {edge : ℝ} (h : tolerance < edge) (o : Vec3 ℝ) :
    ∀ q ∈ cuboidFaces o ⟨edge, edge, edge⟩, q.Fits tolerance := by
  have hedge : 0 ≤ edge := tolerance_nonneg.trans h.le
  refine Facing.fits_of_thick tolerance_nonneg epsilon_le_two_mul_tolerance
    ⟨hedge, hedge, hedge⟩ fun d => ?_
  rwa [Facing.depth_cube]

end Mesh

end Solids
