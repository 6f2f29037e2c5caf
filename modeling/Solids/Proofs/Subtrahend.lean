import Solids.Proofs.Slab
/-!
# Solids.Proofs.Subtrahend

**Where a box acts that is taken from another one.** If the box is deep in every
direction its tree has a node for each of its faces, and whatever is outside of it is in
front of one of them. If it is not, all faces are on the plane of a single node, and
everything behind that plane is taken away, however far from the box.

Main definitions:

* `Mesh.KeepsOutside` — a difference keeps what is far from the second mesh;
* `Mesh.StaysWithin` — a difference has nothing that is far from the first mesh.

Main statement: `Mesh.acts_within_iff`.
-/

namespace Solids

open Vec3

/-! ### Trees that a mesh has -/

namespace Tree

variable {eps : ℝ} {levels : ℕ} {t ta tb : Tree ℝ} {l : List (Polygon ℝ)}

/-- A tree that was built holds pieces of what it was built from. -/
theorem exists_pieceOf_insert (heps : Scalar.epsilon ≤ eps)
    (h : absent.insert eps levels l = some t) {r : Polygon ℝ} (hr : r ∈ t.polygons) :
    ∃ q ∈ l, r.PieceOf q :=
  ((mem_or_near_of_mem_insert heps h hr).resolve_left (by simp)).1

theorem isConvex_of_mem_insert (heps : Scalar.epsilon ≤ eps) (hconvex : ∀ q ∈ l, q.IsConvex)
    (h : absent.insert eps levels l = some t) : ∀ r ∈ t.polygons, r.IsConvex := by
  intro r hr
  obtain ⟨q, hq, hrq⟩ := exists_pieceOf_insert heps h hr
  exact hrq.isConvex (hconvex q hq)

/-- What is kept of the second operand of a difference is convex. -/
theorem isConvex_of_mem_keptByDifference (heps : Scalar.epsilon ≤ eps)
    (hconvex : ∀ q ∈ tb.polygons, q.IsConvex) :
    ∀ r ∈ (keptByDifference eps ta tb).2.polygons, r.IsConvex := by
  rw [keptByDifference, keptByUnion_eq]
  exact isConvex_of_mem_invert (isConvex_of_mem_clipTo heps
    (isConvex_of_mem_invert (isConvex_of_mem_clipTo heps hconvex)))

end Tree

namespace Mesh

variable {eps : ℝ} {levels : ℕ} {a b m : Mesh ℝ} {o size : Vec3 ℝ} {d : Facing}

theorem tree?_block (levels : ℕ) : (block o size).tree? ⟨eps, levels⟩
    = Tree.absent.insert eps levels (cuboidFaces o size) :=
  Tree.ofPolygons_eq (by simp [cuboidFaces])

/-- A difference of meshes that meet has trees of both. -/
theorem exists_of_difference_eq_some {s : Settings ℝ} (hmeets : meets a b = true)
    (h : difference s a b = some m) : ∃ ta tb joined, a.tree? s = some ta ∧ b.tree? s = some tb ∧
      (Tree.keptByDifference s.tolerance ta tb).1.insert s.tolerance s.levels
        (Tree.keptByDifference s.tolerance ta tb).2.polygons = some joined ∧
      m = ofPolygons joined.invert.polygons := by
  obtain ⟨ta, tb, hta, htb⟩ := exists_trees (c := .subtract) hmeets h
  obtain ⟨joined, hjoined, hm⟩ := (difference_eq_some hmeets hta htb).mp h
  exact ⟨ta, tb, joined, hta, htb, hjoined, hm⟩

/-- A difference of meshes that do not meet is the first of them. -/
theorem polygons_of_not_meets {s : Settings ℝ} (hmeets : meets a b = false)
    (h : difference s a b = some m) : m.polygons = a.polygons := by
  simp only [difference, hmeets, Bool.not_false, if_true, Option.some.injEq] at h
  subst h
  unfold compared
  split <;> rfl

/-! ### Where a difference acts -/

/-- What is further than the tolerance from the bounding box of `b` is still there when
`b` has been taken from `a`. -/
def KeepsOutside (eps : ℝ) (a b : Mesh ℝ) : Prop :=
  ∀ levels m, difference ⟨eps, levels⟩ a b = some m →
    ∀ x ∈ cover a.polygons, ¬ b.boundingBox.Near eps x → x ∈ cover m.polygons

/-- When `b` has been taken from `a` there is nothing further than the tolerance from the
bounding box of `a`. -/
def StaysWithin (eps : ℝ) (a b : Mesh ℝ) : Prop :=
  ∀ levels m, difference ⟨eps, levels⟩ a b = some m →
    ∀ x ∈ cover m.polygons, a.boundingBox.Near eps x

/-- The box is deeper than the tolerance in every direction. -/
def IsThick (eps : ℝ) (size : Vec3 ℝ) : Prop := ∀ d : Facing, eps < d.depth size

theorem isThick_iff : IsThick eps size ↔ eps < size.x ∧ eps < size.y ∧ eps < size.z := by
  constructor
  · exact fun h => ⟨h .left, h .front, h .down⟩
  · rintro ⟨hx, hy, hz⟩ d
    cases d <;> assumption

/-- What has no tree is taken from nothing that it meets. -/
theorem keepsOutside_of_not_hasTree (hnone : ¬ b.HasTree eps) : KeepsOutside eps a b := by
  intro levels m hm x hx _
  cases hmeets : meets a b with
  | false => rwa [polygons_of_not_meets hmeets hm]
  | true =>
    obtain ⟨ta, tb, joined, -, htb, -, -⟩ := exists_of_difference_eq_some hmeets hm
    exact absurd ⟨levels, Option.isSome_iff_exists.mpr ⟨tb, htb⟩⟩ hnone

/-- The points of the faces of a box are in its bounding box. -/
theorem near_of_mem_cover_cuboidFaces {x : Vec3 ℝ} (heps : 0 ≤ eps)
    (h₀ : 0 ≤ size.x ∧ 0 ≤ size.y ∧ 0 ≤ size.z) (h : x ∈ cover (cuboidFaces o size)) :
    (block o size).boundingBox.Near eps x := by
  obtain ⟨q, hq, hx⟩ := h
  obtain ⟨d, rfl⟩ := Facing.mem_cuboidFaces.mp hq
  rw [block, boundingBox_cuboidFaces h₀]
  exact (Facing.near_of_mem_region h₀ hx).mono heps

/-- From what has no tree nothing is taken that meets it. -/
theorem staysWithin_of_not_hasTree (heps : 0 ≤ eps) (h₀ : 0 ≤ size.x ∧ 0 ≤ size.y ∧ 0 ≤ size.z)
    (hnone : ¬ (block o size).HasTree eps) : StaysWithin eps (block o size) b := by
  intro levels m hm x hx
  cases hmeets : meets (block o size) b with
  | false =>
    rw [polygons_of_not_meets hmeets hm] at hx
    exact near_of_mem_cover_cuboidFaces heps h₀ hx
  | true =>
    obtain ⟨ta, tb, joined, hta, -, -, -⟩ := exists_of_difference_eq_some hmeets hm
    exact absurd ⟨levels, Option.isSome_iff_exists.mpr ⟨ta, hta⟩⟩ hnone

section Thick

variable (heps : Scalar.epsilon ≤ eps) (hsquare : Scalar.epsilon ≤ 2 * (eps * eps))
  (h₀ : 0 ≤ size.x ∧ 0 ≤ size.y ∧ 0 ≤ size.z) (hthick : IsThick eps size)

include heps hsquare h₀ hthick

/-- The tree of a thick box is a chain of the planes of its faces. -/
theorem isChain_of_thick {t : Tree ℝ} (ht : (block o size).tree? ⟨eps, levels⟩ = some t) :
    t.IsChain ∧ ∀ p, p ∈ t.planes ↔ ∃ d : Facing, d.plane o size = p := by
  have hpos : 0 ≤ eps := Scalar.epsilon_pos.le.trans heps
  have hplane := Facing.face_plane_of_thick hpos hsquare hthick o
  rw [tree?_block] at ht
  obtain ⟨hchain, hplanes⟩ := (Facing.isHull_of_thick hpos hsquare h₀ hthick).isChain ht
  refine ⟨hchain, fun p => (hplanes p).trans ⟨?_, ?_⟩⟩
  · rintro ⟨q, hq, rfl⟩
    obtain ⟨d, rfl⟩ := Facing.mem_cuboidFaces.mp hq
    exact ⟨d, (hplane d).symm⟩
  · rintro ⟨d, rfl⟩
    exact ⟨_, Facing.mem_cuboidFaces.mpr ⟨d, rfl⟩, hplane d⟩

/-- Taking away a thick box leaves what is outside of it. -/
theorem keepsOutside_of_thick (hconvex : ∀ q ∈ a.polygons, q.IsConvex) :
    KeepsOutside eps a (block o size) := by
  intro levels m hm x hx hfar
  cases hmeets : meets a (block o size) with
  | false => rwa [polygons_of_not_meets hmeets hm]
  | true =>
    obtain ⟨ta, tb, joined, hta, htb, hjoined, rfl⟩ := exists_of_difference_eq_some hmeets hm
    obtain ⟨hchain, hplanes⟩ := isChain_of_thick heps hsquare h₀ hthick htb
    obtain ⟨d, hd⟩ : ∃ d : Facing, eps < (d.plane o size).signedDistance x := by
      rw [block, boundingBox_cuboidFaces h₀, Facing.near_iff] at hfar
      push Not at hfar
      exact hfar
    rw [tree?, Tree.ofPolygons_eq (ne_nil_of_meets hmeets).1] at hta
    have hxa : x ∈ cover ta.invert.polygons := by
      rw [Tree.cover_invert, Tree.cover_insert heps hta hconvex]
      exact .inr hx
    have hkept : x ∈ cover (ta.invert.clipTo eps tb).polygons :=
      Tree.mem_cover_clipTo_of_lt heps
        (Tree.isConvex_of_mem_invert (Tree.isConvex_of_mem_insert heps hconvex hta))
        hchain ((hplanes _).mpr ⟨d, rfl⟩) hd hxa
    rw [tree?_block] at htb
    rw [ofPolygons_polygons, Tree.cover_invert, Tree.cover_insert heps hjoined
      (Tree.isConvex_of_mem_keptByDifference heps (Tree.isConvex_of_mem_insert heps
        (fun _ => Facing.isConvex_of_mem_cuboidFaces h₀) htb))]
    exact .inl hkept

/-- What is taken from a thick box leaves nothing outside of it. -/
theorem staysWithin_of_thick : StaysWithin eps (block o size) b := by
  have hpos : 0 ≤ eps := Scalar.epsilon_pos.le.trans heps
  intro levels m hm x hx
  cases hmeets : meets (block o size) b with
  | false =>
    rw [polygons_of_not_meets hmeets hm] at hx
    exact near_of_mem_cover_cuboidFaces hpos h₀ hx
  | true =>
    obtain ⟨ta, tb, joined, hta, htb, hjoined, rfl⟩ := exists_of_difference_eq_some hmeets hm
    obtain ⟨hchain, hplanes⟩ := isChain_of_thick heps hsquare h₀ hthick hta
    rw [tree?_block] at hta
    rw [ofPolygons_polygons, Tree.cover_invert] at hx
    obtain ⟨r, hr, hx⟩ := hx
    rcases Tree.mem_or_near_of_mem_insert heps hjoined hr with hr | ⟨⟨q, hq, hrq⟩, -⟩
    · have hxa : x ∈ cover ta.invert.polygons := Tree.cover_clipTo_subset heps ⟨r, hr, hx⟩
      rw [Tree.cover_invert] at hxa
      obtain ⟨r', hr', hx⟩ := hxa
      obtain ⟨q, hq, hrq⟩ := Tree.exists_pieceOf_insert heps hta hr'
      exact near_of_mem_cover_cuboidFaces hpos h₀ ⟨q, hq, hrq.region_subset hx⟩
    · have hxb : x ∈ cover (Tree.keptByDifference eps ta tb).2.polygons :=
        ⟨q, hq, hrq.region_subset hx⟩
      rw [Tree.keptByDifference, Tree.keptByUnion_eq, Tree.cover_invert] at hxb
      rw [block, boundingBox_cuboidFaces h₀, Facing.near_iff]
      exact fun d => Tree.le_of_mem_cover_clipTo_invert heps hchain hxb ((hplanes _).mpr ⟨d, rfl⟩)

end Thick

/-! ### Boxes that are not deep enough -/

/-- Every face of the inner box is at least `room` behind that of the outer box. -/
def Surrounds (room : ℝ) (outer outerSize inner innerSize : Vec3 ℝ) : Prop :=
  ∀ d : Facing, d.level inner innerSize + room ≤ d.level outer outerSize

section Surrounds

variable {room : ℝ} {o' size' x : Vec3 ℝ} (h : Surrounds room o size o' size')

include h

theorem Surrounds.signedDistance_le (d : Facing) :
    (d.plane o size).signedDistance x ≤ (d.plane o' size').signedDistance x - room := by
  have hd := h d
  show d.normal.dot x - d.level o size ≤ d.normal.dot x - d.level o' size' - room
  linarith

theorem Surrounds.depth_le (d : Facing) : d.depth size' + 2 * room ≤ d.depth size := by
  have hdepth : ∀ (d : Facing) (o size : Vec3 ℝ),
      d.depth size = d.level o size + d.opposite.level o size := by
    intro d o size
    cases d <;> simp [Facing.depth, Facing.level, Facing.opposite]
  have hd := h d
  have hopposite := h d.opposite
  rw [hdepth d o size, hdepth d o' size']
  linarith

theorem Surrounds.isThick (heps : 0 ≤ eps) (hroom : 2 * eps < room)
    (h₀' : 0 ≤ size'.x ∧ 0 ≤ size'.y ∧ 0 ≤ size'.z) : IsThick eps size := by
  intro d
  have hdepth := h.depth_le d
  have hinner : 0 ≤ d.depth size' := by
    obtain ⟨hx, hy, hz⟩ := h₀'
    cases d <;> assumption
  linarith

/-- The boxes meet, whichever is first. -/
theorem Surrounds.meets (hroom : 0 ≤ room) (h₀ : 0 ≤ size.x ∧ 0 ≤ size.y ∧ 0 ≤ size.z)
    (h₀' : 0 ≤ size'.x ∧ 0 ≤ size'.y ∧ 0 ≤ size'.z) :
    Mesh.meets (block o size) (block o' size') = true ∧
      Mesh.meets (block o' size') (block o size) = true := by
  have hdown := h .down
  have hup := h .up
  have hfront := h .front
  have hback := h .back
  have hleft := h .left
  have hright := h .right
  simp only [Facing.level] at *
  rw [meets_block h₀ h₀', meets_block h₀' h₀]
  obtain ⟨hx', hy', hz'⟩ := h₀'
  constructor <;>
    simp only [BoundingBox.intersects, add_x, add_y, add_z, Bool.and_eq_true, decide_eq_true_eq] <;>
    refine ⟨⟨⟨⟨⟨?_, ?_⟩, ?_⟩, ?_⟩, ?_⟩, ?_⟩ <;> linarith

/-- Behind a plane that has all of the inner box on it the outer box has points that are
far from the inner box. -/
theorem Surrounds.exists_far_point (heps : 0 ≤ eps) (hroom : 2 * eps < room)
    (h₀' : 0 ≤ size'.x ∧ 0 ≤ size'.y ∧ 0 ≤ size'.z)
    (hon : ∀ q ∈ cuboidFaces o' size', (d.face o' size').plane.sideOfPolygon eps q = .on) :
    ∃ x ∈ cover (cuboidFaces o size), (d.face o' size').plane.signedDistance x < -eps ∧
      ¬ (BoundingBox.mk o' (o' + size')).Near eps x := by
  obtain ⟨e, hnormal⟩ := Facing.exists_face_normal_eq (o := o') h₀' d
  have hsurface := Facing.signedDistance_center o size e.opposite
  have hroomed := h.signedDistance_le e.opposite (x := Facing.center o size e.opposite)
  have hcorner : o' + ⟨0, 0, 0⟩ ∈ Facing.down.corners o' size' := by simp [Facing.corners]
  have hinner := Facing.near_iff.mp (Facing.near_of_mem_corners h₀' hcorner) e.opposite
  have hnear := hon _ (Facing.mem_cuboidFaces.mpr ⟨.down, rfl⟩)
  rw [Plane.sideOfPolygon_eq_on, Facing.face_corners] at hnear
  have hnear := Plane.sideOf_eq_on.mp (hnear _ hcorner)
  refine ⟨Facing.center o size e.opposite,
    ⟨_, Facing.mem_cuboidFaces.mpr ⟨e.opposite, rfl⟩, Facing.center_mem_region o size _⟩, ?_, ?_⟩
  · simp only [Plane.signedDistance, Facing.plane, Facing.normal_opposite, neg_dot, hnormal]
      at hsurface hroomed hinner hnear ⊢
    linarith [(abs_le.mp hnear).2]
  · intro hfar
    have hle := Facing.near_iff.mp hfar e.opposite
    linarith

/-- The tree of the outer box is a chain with the inner box behind its planes. -/
theorem Surrounds.exists_chain (heps : Scalar.epsilon ≤ eps)
    (hsquare : Scalar.epsilon ≤ 2 * (eps * eps)) (hroom : 2 * eps < room)
    (h₀ : 0 ≤ size.x ∧ 0 ≤ size.y ∧ 0 ≤ size.z) (h₀' : 0 ≤ size'.x ∧ 0 ≤ size'.y ∧ 0 ≤ size'.z) :
    ∃ t, Tree.absent.insert eps 6 (cuboidFaces o size) = some t ∧
      t.IsOperand eps (cuboidFaces o size) ∧ t.IsChain ∧
      ∀ p ∈ t.planes, ∀ q ∈ cuboidFaces o' size', p.sideOfPolygon eps q = .back := by
  have hpos : 0 ≤ eps := Scalar.epsilon_pos.le.trans heps
  have hthick := h.isThick hpos hroom h₀'
  obtain ⟨t, ht, hoperand⟩ : ∃ t, (block o size).tree? ⟨eps, 6⟩ = some t ∧
      t.IsOperand eps (cuboidFaces o size) :=
    Tree.exists_ofPolygons heps (by simp [cuboidFaces])
      (Facing.fits_of_thick hpos hsquare h₀ hthick) le_rfl
  obtain ⟨hchain, hplanes⟩ := isChain_of_thick heps hsquare h₀ hthick ht
  refine ⟨t, (tree?_block 6).symm.trans ht, hoperand, hchain, fun p hp q hq => ?_⟩
  obtain ⟨d, rfl⟩ := (hplanes p).mp hp
  obtain ⟨d', rfl⟩ := Facing.mem_cuboidFaces.mp hq
  have hbehind : ∀ x ∈ d'.corners o' size', (d.plane o size).signedDistance x < -eps := by
    intro x hx
    have hinner := Facing.near_iff.mp (Facing.near_of_mem_corners h₀' hx) d
    have hroomed := h.signedDistance_le (x := x) d
    linarith
  rw [Plane.sideOfPolygon_eq_back hpos, Facing.face_corners]
  obtain ⟨x, hx⟩ : ∃ x, x ∈ d'.corners o' size' := by cases d' <;> exact ⟨_, List.mem_cons_self⟩
  exact ⟨fun y hy => (hbehind y hy).le.trans (by linarith), x, hx, hbehind x hx⟩

section Thin

variable (heps : Scalar.epsilon ≤ eps) (hsquare : Scalar.epsilon ≤ 2 * (eps * eps))
  (hroom : 2 * eps < room) (hsize : 0 < size.x ∧ 0 < size.y ∧ 0 < size.z)
  (hsize' : 0 < size'.x ∧ 0 < size'.y ∧ 0 < size'.z) (hthin : ¬ IsThick eps size')
  (htree : (block o' size').HasTree eps)

include heps hsquare hroom hsize hsize' hthin htree

/-- A box that is not deep enough takes away all that is behind the plane of its node. -/
theorem Surrounds.not_keepsOutside :
    ¬ KeepsOutside eps (block o size) (block o' size') := by
  have hpos : 0 ≤ eps := Scalar.epsilon_pos.le.trans heps
  have h₀ : 0 ≤ size.x ∧ 0 ≤ size.y ∧ 0 ≤ size.z := ⟨hsize.1.le, hsize.2.1.le, hsize.2.2.le⟩
  have h₀' : 0 ≤ size'.x ∧ 0 ≤ size'.y ∧ 0 ≤ size'.z :=
    ⟨hsize'.1.le, hsize'.2.1.le, hsize'.2.2.le⟩
  obtain ⟨ta, hta, hoperand, hchain, hbehind⟩ := h.exists_chain heps hsquare hroom h₀ h₀'
  simp only [HasTree, tree?_block] at htree
  obtain ⟨d, hon, htb⟩ := insert_cuboidFaces_of_not_thick heps hsquare hsize' hthin htree
  obtain ⟨x, hx, hlt, hfar⟩ := h.exists_far_point hpos hroom h₀' hon
  set p := (d.face o' size').plane
  set tb : Tree ℝ := .node (some p) (cuboidFaces o' size') .absent .absent
  have hpolygons : tb.polygons = cuboidFaces o' size' := by simp [tb]
  have hkept : (Tree.keptByDifference eps ta tb).2 = tb :=
    Tree.keptByDifference_snd_eq hpos hchain hoperand.present (hpolygons ▸ hbehind)
  obtain ⟨k, hk⟩ :=
    Tree.exists_levels_insert_invert tb hpos hchain hbehind ⟨1, by rw [htb 0]; rfl⟩
  obtain ⟨joined, hjoined⟩ := Option.isSome_iff_exists.mp hk
  have hinsert : (Tree.keptByDifference eps ta tb).1.insert eps (k + 6)
      (Tree.keptByDifference eps ta tb).2.polygons = some joined := by
    rw [hkept, hpolygons, Tree.keptByDifference, Tree.keptByUnion_eq]
    exact Tree.insert_mono hjoined (by omega)
  have hdifference : difference ⟨eps, k + 6⟩ (block o size) (block o' size')
      = some (ofPolygons joined.invert.polygons) :=
    (difference_eq_some (h.meets (by linarith) h₀ h₀').1
      ((tree?_block _).trans (Tree.insert_mono hta (by omega)))
      ((tree?_block _).trans (htb _))).mpr ⟨joined, hinsert, rfl⟩
  intro hkeeps
  have hxm := hkeeps _ _ hdifference x hx (by rwa [block, boundingBox_cuboidFaces h₀'])
  rw [ofPolygons_polygons, Tree.cover_invert, Tree.cover_insert heps hinsert (by
    rw [hkept, hpolygons]
    exact fun _ => Facing.isConvex_of_mem_cuboidFaces h₀'), hkept, hpolygons] at hxm
  rcases hxm with hxm | ⟨q, hq, hxq⟩
  · have hclear : tb.Clear eps x := by
      intro p' hp'
      obtain rfl : p' = p := by simpa [tb, Tree.planes] using hp'
      exact lt_abs.mpr (.inr (by linarith))
    rw [Tree.keptByDifference, Tree.keptByUnion_eq, Tree.mem_cover_clipTo heps rfl
      (Tree.isConvex_of_mem_invert (Tree.isConvex_of_mem_insert heps
        (fun _ => Facing.isConvex_of_mem_cuboidFaces h₀) hta)) hclear] at hxm
    exact hxm.2 ((Tree.inside_of_neg (by linarith)).mpr (.inl rfl))
  · obtain ⟨d', rfl⟩ := Facing.mem_cuboidFaces.mp hq
    exact hfar ((Facing.near_of_mem_region h₀' hxq).mono hpos)

/-- A box that is not deep enough leaves all that is behind the plane of its node. -/
theorem Surrounds.not_staysWithin :
    ¬ StaysWithin eps (block o' size') (block o size) := by
  have hpos : 0 ≤ eps := Scalar.epsilon_pos.le.trans heps
  have h₀ : 0 ≤ size.x ∧ 0 ≤ size.y ∧ 0 ≤ size.z := ⟨hsize.1.le, hsize.2.1.le, hsize.2.2.le⟩
  have h₀' : 0 ≤ size'.x ∧ 0 ≤ size'.y ∧ 0 ≤ size'.z :=
    ⟨hsize'.1.le, hsize'.2.1.le, hsize'.2.2.le⟩
  obtain ⟨tb, htb, hoperand, -, -⟩ := h.exists_chain heps hsquare hroom h₀ h₀'
  simp only [HasTree, tree?_block] at htree
  obtain ⟨d, hon, hta⟩ := insert_cuboidFaces_of_not_thick heps hsquare hsize' hthin htree
  obtain ⟨x, hx, hlt, hfar⟩ := h.exists_far_point hpos hroom h₀' hon
  set p := (d.face o' size').plane
  set ta : Tree ℝ := .node (some p) (cuboidFaces o' size') .absent .absent
  have hkept : (Tree.keptByDifference eps ta tb).2.IsOperand eps (cuboidFaces o size) := by
    rw [Tree.keptByDifference, Tree.keptByUnion_eq]
    exact ((hoperand.clipTo heps).invert.clipTo heps).invert
  obtain ⟨planes, hcard, hplanes⟩ := hkept.few
  obtain ⟨joined, hjoined, -⟩ : ∃ joined, (Tree.keptByDifference eps ta tb).1.insert eps 7
      (Tree.keptByDifference eps ta tb).2.polygons = some joined ∧ _ := by
    refine Tree.exists_insert heps ?_ (fun q hq => (hkept.madeOf q hq).fits) hplanes ?_
    · rw [Tree.keptByDifference, Tree.keptByUnion_eq, Tree.grown_clipTo, Tree.grown_invert]
      exact ⟨rfl, trivial, trivial⟩
    · rw [Tree.keptByDifference, Tree.keptByUnion_eq, Tree.levels_clipTo, Tree.levels_invert]
      have hlength : (cuboidFaces o size).length = 6 := rfl
      have hlevels : ta.levels = 1 := rfl
      omega
  have hdifference : difference ⟨eps, 7⟩ (block o' size') (block o size)
      = some (ofPolygons joined.invert.polygons) :=
    (difference_eq_some (h.meets (by linarith) h₀ h₀').2 ((tree?_block _).trans (hta 6))
      ((tree?_block _).trans (Tree.insert_mono htb (by omega)))).mpr ⟨joined, hjoined, rfl⟩
  intro hstays
  have hconvex := Tree.isConvex_of_mem_insert heps
    (fun _ => Facing.isConvex_of_mem_cuboidFaces h₀) htb
  have hclear : ta.invert.Clear eps x := by
    intro p' hp'
    obtain rfl : p' = p.flip := by simpa [ta, Tree.planes, Tree.invert] using hp'
    exact lt_abs.mpr (.inl (by rw [Plane.flip_signedDistance]; linarith))
  have houtside : ¬ ta.invert.Inside x := by
    rw [show ta.invert = .node (some p.flip) _ .absent .absent from rfl,
      Tree.inside_of_pos (by rw [Plane.flip_signedDistance]; linarith)]
    exact id
  have hxb : x ∈ cover (Tree.keptByDifference eps ta tb).2.polygons := by
    rw [Tree.keptByDifference, Tree.keptByUnion_eq, Tree.cover_invert,
      Tree.mem_cover_clipTo heps rfl
        (Tree.isConvex_of_mem_invert (Tree.isConvex_of_mem_clipTo heps hconvex)) hclear,
      Tree.cover_invert, Tree.mem_cover_clipTo heps rfl hconvex hclear,
      Tree.cover_insert heps htb fun _ => Facing.isConvex_of_mem_cuboidFaces h₀]
    exact ⟨⟨.inr hx, houtside⟩, houtside⟩
  have hxm := hstays _ _ hdifference x (by
    rw [ofPolygons_polygons, Tree.cover_invert, Tree.cover_insert heps hjoined
      (Tree.isConvex_of_mem_keptByDifference heps hconvex)]
    exact .inr hxb)
  rw [block, boundingBox_cuboidFaces h₀'] at hxm
  exact hfar hxm

end Thin

end Surrounds

/-! ### Any two boxes -/

/-- The mesh is that of a box with edges of these lengths, and every edge has one. -/
structure IsCuboid (size : Vec3 ℝ) (m : Mesh ℝ) : Prop where
  /-- No edge is without length. -/
  positive : 0 < size.x ∧ 0 < size.y ∧ 0 < size.z
  /-- The mesh was made with some center. -/
  made : ∃ center, cuboid size center = .ok m

theorem IsCuboid.nonneg (h : IsCuboid size m) : 0 ≤ size.x ∧ 0 ≤ size.y ∧ 0 ≤ size.z :=
  ⟨h.positive.1.le, h.positive.2.1.le, h.positive.2.2.le⟩

theorem IsCuboid.exists_eq_block (h : IsCuboid size m) : ∃ o, m = block o size := by
  obtain ⟨⟨hx, hy, hz⟩, center, hmade⟩ := h
  obtain ⟨-, rfl⟩ := cuboid_eq_ok.mp hmade
  exact ⟨_, if_neg (by simp [hx.ne', hy.ne', hz.ne'])⟩

theorem isCuboid_block (hsize : 0 < size.x ∧ 0 < size.y ∧ 0 < size.z) (o : Vec3 ℝ) :
    IsCuboid size (block o size) := by
  obtain ⟨hx, hy, hz⟩ := hsize
  refine ⟨⟨hx, hy, hz⟩, some (o + size.scale Scalar.half), cuboid_eq_ok.mpr
    ⟨⟨hx.le, hy.le, hz.le⟩, ?_⟩⟩
  rw [if_neg (by simp [hx.ne', hy.ne', hz.ne']), Option.getD_some, add_sub_cancel_right]
  rfl

/-- A box with a large face has a tree. -/
theorem hasTree_of_large (hsize : 0 < size.x ∧ 0 < size.y ∧ 0 < size.z)
    (hlarge : Scalar.epsilon < d.doubledArea size) : (block o size).HasTree tolerance := by
  simp only [HasTree, tree?_block]
  refine (exists_levels_cuboidFaces epsilon_le_tolerance epsilon_le_two_mul_tolerance hsize).mpr
    (.inl ⟨_, Facing.mem_cuboidFaces.mpr ⟨d, rfl⟩, ?_⟩)
  exact (Facing.isLarge_face ⟨hsize.1.le, hsize.2.1.le, hsize.2.2.le⟩).mpr hlarge

/-- A box grown on every side. -/
theorem exists_surrounds (o' size' : Vec3 ℝ) (hsize' : 0 < size'.x ∧ 0 < size'.y ∧ 0 < size'.z) :
    ∃ o size, (0 < size.x ∧ 0 < size.y ∧ 0 < size.z) ∧
      Surrounds (3 * tolerance) o size o' size' := by
  have hpos : 0 < tolerance := tolerance_pos
  obtain ⟨hx, hy, hz⟩ := hsize'
  refine ⟨o' - splat (3 * tolerance), size' + splat (6 * tolerance), ⟨?_, ?_, ?_⟩, fun d => ?_⟩
  · simp only [add_x, splat]; positivity
  · simp only [add_y, splat]; positivity
  · simp only [add_z, splat]; positivity
  · cases d <;> simp [Facing.level, splat] <;> linarith

/-- **A subtrahend acts only where it is, if it is thick.** The boxes that may be taken
from any box, and leave what is outside of them, are those that are deeper than the
tolerance in every direction, and those that have no tree, which nothing can be taken
from or with. The same boxes are those that any box may be taken from with nothing left
outside of them. -/
theorem acts_within_iff (h : IsCuboid size m) :
    ((∀ size' a, IsCuboid size' a → KeepsOutside tolerance a m) ↔
        IsThick tolerance size ∨ ¬ m.HasTree tolerance) ∧
      ((∀ size' b, IsCuboid size' b → StaysWithin tolerance m b) ↔
        IsThick tolerance size ∨ ¬ m.HasTree tolerance) := by
  have hpos : 0 < tolerance := tolerance_pos
  have hroom : 2 * tolerance < 3 * tolerance := by linarith
  have h₀ := h.nonneg
  obtain ⟨o, rfl⟩ := h.exists_eq_block
  obtain ⟨outer, outerSize, houter, hsurrounds⟩ := exists_surrounds o size h.positive
  constructor
  · constructor
    · intro hkeeps
      by_contra hnone
      rw [not_or, not_not] at hnone
      exact hsurrounds.not_keepsOutside epsilon_le_tolerance epsilon_le_two_mul_tolerance hroom
        houter h.positive hnone.1 hnone.2 (hkeeps _ _ (isCuboid_block houter outer))
    · rintro (hthick | hnone) size' a ha
      · obtain ⟨o', rfl⟩ := ha.exists_eq_block
        exact keepsOutside_of_thick epsilon_le_tolerance epsilon_le_two_mul_tolerance h₀ hthick
          fun _ => Facing.isConvex_of_mem_cuboidFaces ha.nonneg
      · exact keepsOutside_of_not_hasTree hnone
  · constructor
    · intro hstays
      by_contra hnone
      rw [not_or, not_not] at hnone
      exact hsurrounds.not_staysWithin epsilon_le_tolerance epsilon_le_two_mul_tolerance hroom
        houter h.positive hnone.1 hnone.2 (hstays _ _ (isCuboid_block houter outer))
    · rintro (hthick | hnone) size' b hb
      · exact staysWithin_of_thick epsilon_le_tolerance epsilon_le_two_mul_tolerance h₀ hthick
      · exact staysWithin_of_not_hasTree hpos.le h₀ hnone

/-- A slab thinner than the tolerance is not among these boxes. -/
theorem acts_within_iff_slab : IsCuboid ⟨1, 1, 1 / 1000000⟩ (block 0 ⟨1, 1, 1 / 1000000⟩) ∧
    ¬ (∀ size' a, IsCuboid size' a → KeepsOutside tolerance a (block 0 ⟨1, 1, 1 / 1000000⟩)) ∧
    ¬ (∀ size' b, IsCuboid size' b → StaysWithin tolerance (block 0 ⟨1, 1, 1 / 1000000⟩) b) := by
  have hslab : IsCuboid ⟨1, 1, 1 / 1000000⟩ (block 0 ⟨1, 1, 1 / 1000000⟩) :=
    isCuboid_block (by norm_num) 0
  have hthin : ¬ IsThick tolerance ⟨1, 1, 1 / 1000000⟩ := by
    rw [isThick_iff, tolerance_eq]
    norm_num
  have htree : (block 0 ⟨1, 1, 1 / 1000000⟩).HasTree tolerance := by
    refine hasTree_of_large (d := .up) hslab.positive ?_
    rw [Facing.doubledArea, Scalar.epsilon_real]
    norm_num
  have hnone : ¬ (IsThick tolerance ⟨1, 1, 1 / 1000000⟩ ∨
      ¬ (block 0 ⟨1, 1, 1 / 1000000⟩).HasTree tolerance) := by tauto
  exact ⟨hslab, fun h => hnone ((acts_within_iff hslab).1.mp h),
    fun h => hnone ((acts_within_iff hslab).2.mp h)⟩

/-- A slab in the middle of a cube takes away more than is near it. -/
theorem exists_not_keepsOutside : ∃ a b, IsCuboid ⟨2, 2, 2⟩ a ∧
    IsCuboid ⟨1 / 2, 1 / 2, 1 / 1000000⟩ b ∧ ¬ KeepsOutside tolerance a b := by
  have ha : IsCuboid ⟨2, 2, 2⟩ (block ⟨-1, -1, -1⟩ ⟨2, 2, 2⟩) := isCuboid_block (by norm_num) _
  have hb : IsCuboid ⟨1 / 2, 1 / 2, 1 / 1000000⟩
      (block ⟨-1 / 4, -1 / 4, -1 / 2000000⟩ ⟨1 / 2, 1 / 2, 1 / 1000000⟩) :=
    isCuboid_block (by norm_num) _
  have hsurrounds : Surrounds (1 / 2) ⟨-1, -1, -1⟩ ⟨2, 2, 2⟩ ⟨-1 / 4, -1 / 4, -1 / 2000000⟩
      ⟨1 / 2, 1 / 2, 1 / 1000000⟩ := by
    intro d
    cases d <;> norm_num [Facing.level]
  refine ⟨_, _, ha, hb, hsurrounds.not_keepsOutside epsilon_le_tolerance
    epsilon_le_two_mul_tolerance ?_ ha.positive hb.positive ?_ ?_⟩
  · rw [tolerance_eq]
    norm_num
  · rw [isThick_iff, tolerance_eq]
    norm_num
  · refine hasTree_of_large (d := .up) hb.positive ?_
    rw [Facing.doubledArea, Scalar.epsilon_real]
    norm_num

end Mesh

end Solids
