import Solids.Proofs.Surface
import Solids.Proofs.CleanSolid
/-!
# Solids.Proofs.Touching

**Faces that touch.** Where a face of one solid lies on a face of another one, the result of
an operation has one copy of it or none, and never two.

Nothing of the surface theorem applies there, because the point is on a plane of either
tree. What decides is the way the faces look: each tree keeps the other's face if it looks
the way its own does, whatever is on the face otherwise, and `Tree.HasFace` is all that has
to be known of a tree for that. The second operand is clipped from both sides, and looks
the other way the second time, so of its face nothing is ever left.

Main statements:

* `Tree.countAt_keptByUnion`, `Tree.countAt_keptByIntersection` — the copies of a face that
  the operands go into the last step with;
* `Mesh.countAt_of_touching` — the copies that the results have.
-/

namespace Solids

namespace Tree

variable {eps : ℝ} {levels : ℕ} {a b l : List (Polygon ℝ)} {t ta tb solid joined : Tree ℝ}
  {kept : Tree ℝ × Tree ℝ} {f fa fb g : Polygon ℝ} {x : Vec3 ℝ}

/-! ### The tree of a solid at a point of its face -/

/-- Of all polygons of the tree one has the point, a piece of `f`. Of what lies in the plane
of `f` it takes away what looks the other way. -/
structure HasFace (eps : ℝ) (x : Vec3 ℝ) (f : Polygon ℝ) (t : Tree ℝ) : Prop where
  /-- The tree is no missing child. -/
  present : t.isAbsent = false
  /-- Every node has a plane. -/
  grown : t.Grown
  /-- The face has the point. -/
  flush : f.FlushAt x f.plane
  /-- There is one copy of it. -/
  single : countAt x t.polygons = 1
  /-- What has the point is cut from the face. -/
  pieces : ∀ r ∈ t.polygons, x ∈ r.region → r.PieceOf f
  /-- What lies in the plane of the face goes to one side of every plane. -/
  sorts : ∀ r : Polygon ℝ, r.FlushAt x f.plane → ∀ p ∈ t.planes, p.Sorts eps x r
  /-- It is exposed if it looks the same way. -/
  exposes_iff : ∀ r : Polygon ℝ, r.FlushAt x f.plane →
    (t.Exposes eps x r ↔ 0 < f.plane.normal.dot r.plane.normal)

theorem HasFace.invert (heps : 0 ≤ eps) (h : t.HasFace eps x f) :
    t.invert.HasFace eps x f.flip := by
  have hflush : ∀ r : Polygon ℝ, r.FlushAt x f.flip.plane → r.FlushAt x f.plane :=
    fun r hr => hr.congr (Plane.Coincides.refl f.plane).flip_left
  refine ⟨isAbsent_invert.trans h.present, grown_invert.mpr h.grown,
    h.flush.flip.congr (Plane.Coincides.refl f.plane).flip_left.symm,
    countAt_invert.trans h.single, ?_, ?_, ?_⟩
  · intro r hr hx
    obtain ⟨q, hq, rfl⟩ := mem_polygons_invert.mp hr
    rw [Polygon.flip_region] at hx
    exact (h.pieces q hq hx).flip
  · intro r hr p hp
    rw [planes_invert.mem_iff, List.mem_map] at hp
    obtain ⟨p, hp, rfl⟩ := hp
    exact (h.sorts r (hflush r hr) p hp).flip heps
  · intro r hr
    have hne := (hflush r hr).dot_ne_zero h.flush.normal_ne_zero
    rw [exposes_invert heps h.grown h.present hr.mem_region (h.sorts r (hflush r hr)),
      h.exposes_iff r (hflush r hr), Polygon.flip_plane, Plane.flip_normal, Vec3.neg_dot, neg_pos,
      not_lt]
    exact ⟨fun hle => lt_of_le_of_ne hle hne, le_of_lt⟩

/-- The tree of a clean solid at a point of a single face. -/
theorem IsOperand.hasFace (heps : Scalar.epsilon ≤ eps) (hl : IsCleanSolid eps l)
    (hg : IsFaceAt eps x l g) (ht : ofPolygons eps levels l = some t)
    (hoperand : t.IsOperand eps l) : t.HasFace eps x g := by
  have hnonneg : 0 ≤ eps := Scalar.epsilon_pos.le.trans heps
  rw [ofPolygons_eq (List.ne_nil_of_mem hg.mem)] at ht
  obtain ⟨hchain, hplanes, hon⟩ := (hl.isShell hnonneg).isChain ht
  have hsorts : ∀ r : Polygon ℝ, r.FlushAt x g.plane → ∀ p ∈ t.planes, p.Sorts eps x r := by
    intro r hr p hp
    obtain ⟨q, hq, rfl⟩ := hplanes p hp
    exact hg.sorts hnonneg hl hr hq
  have honly : ∀ q ∈ l, x ∈ q.region → q = g := fun q hq hx =>
    eq_of_countAt_eq_one hg.single hg.mem hg.mem_region hq hx
  refine ⟨hoperand.present, hoperand.grown, hg.flushAt hl, ?_, ?_, hsorts, ?_⟩
  · rw [countAt_insert heps ht fun q hq hx => ?_, hg.single, polygons_absent, countAt_nil]
    rw [honly q hq hx]
    exact ⟨hl.convex g hg.mem, hsorts g (hg.flushAt hl)⟩
  · intro r hr hx
    obtain ⟨⟨q, hq, hrq⟩, -⟩ := (mem_or_near_of_mem_insert heps ht hr).resolve_left (by simp)
    exact honly q hq (hrq.region_subset hx) ▸ hrq
  · intro r hr
    rw [hchain.exposes_iff]
    constructor
    · rintro ⟨p, hp, hahead⟩
      obtain ⟨q, hq, rfl⟩ := hplanes p hp
      exact ((hg.ahead_iff hnonneg hl hr hq).mp hahead).2
    · intro hsame
      -- the face is on some plane of the tree, and that one cannot hold other points
      obtain ⟨p, hp, hpg⟩ := hon g hg.mem
      obtain ⟨q, hq, rfl⟩ := hplanes p hp
      refine ⟨q.plane, hp, (hg.ahead_iff hnonneg hl hr hq).mpr ⟨?_, hsame⟩⟩
      by_contra hother
      have hfar := hg.lt_neg hnonneg hl hq hother
      have hnear := (abs_le.mp (Plane.abs_le_of_on hpg hg.mem_region)).1
      linarith

/-! ### Clipping two trees that share a face -/

open scoped Classical in
theorem HasFace.countAt_clipTo (heps : Scalar.epsilon ≤ eps) (ht : t.HasFace eps x f)
    (hsolid : solid.HasFace eps x g) (hfg : f.plane.Coincides g.plane) :
    countAt x (t.clipTo eps solid).polygons
      = if 0 < g.plane.normal.dot f.plane.normal then 1 else 0 := by
  have hflush := ht.flush.congr hfg
  simp only [Tree.countAt_clipTo heps ht.flush.convex (hsolid.sorts f hflush) ht.pieces,
    hsolid.exposes_iff f hflush, ht.single]

/-- Clipped from both sides, the face is gone: it cannot look the same way both times. -/
theorem HasFace.countAt_clipTo_invert_clipTo (heps : Scalar.epsilon ≤ eps)
    (ht : t.HasFace eps x f) (hsolid : solid.HasFace eps x g)
    (hfg : f.plane.Coincides g.plane) :
    countAt x ((t.clipTo eps solid).invert.clipTo eps solid).polygons = 0 := by
  classical
  have hflush : f.flip.FlushAt x g.plane := ht.flush.flip.congr hfg
  have hpieces : ∀ r ∈ (t.clipTo eps solid).invert.polygons, x ∈ r.region →
      r.PieceOf f.flip := by
    intro r hr hx
    obtain ⟨q, hq, rfl⟩ := mem_polygons_invert.mp hr
    obtain ⟨o, ho, hqo⟩ := exists_pieceOf_clipTo heps hq
    rw [Polygon.flip_region] at hx
    exact (hqo.trans (ht.pieces o ho (hqo.region_subset hx))).flip
  rw [Tree.countAt_clipTo heps hflush.convex (hsolid.sorts _ hflush) hpieces, countAt_invert,
    ht.countAt_clipTo heps hsolid hfg]
  split_ifs with hflip hsame
  · rw [hsolid.exposes_iff _ hflush, Polygon.flip_plane, Plane.flip_normal, Vec3.dot_comm,
      Vec3.neg_dot, Vec3.dot_comm] at hflip
    linarith
  · rfl
  · rfl

open scoped Classical in
/-- A union goes on with the first face if the second one looks the same way. -/
theorem countAt_keptByUnion (heps : Scalar.epsilon ≤ eps) (ha : ta.HasFace eps x fa)
    (hb : tb.HasFace eps x fb) (hsame : fa.plane.Coincides fb.plane) :
    countAt x (keptByUnion eps ta tb).1.polygons
        = (if 0 < fb.plane.normal.dot fa.plane.normal then 1 else 0) ∧
      countAt x (keptByUnion eps ta tb).2.polygons = 0 := by
  rw [keptByUnion_eq, countAt_invert]
  exact ⟨ha.countAt_clipTo heps hb hsame, hb.countAt_clipTo_invert_clipTo heps ha hsame.symm⟩

open scoped Classical in
/-- An intersection goes on with the first face if the second one looks the same way. -/
theorem countAt_keptByIntersection (heps : Scalar.epsilon ≤ eps) (ha : ta.HasFace eps x fa)
    (hb : tb.HasFace eps x fb) (hsame : fa.plane.Coincides fb.plane) :
    countAt x (keptByIntersection eps ta tb).1.polygons
        = (if 0 < fb.plane.normal.dot fa.plane.normal then 1 else 0) ∧
      countAt x (keptByIntersection eps ta tb).2.polygons = 0 := by
  have hnonneg : 0 ≤ eps := Scalar.epsilon_pos.le.trans heps
  have hflip : fa.flip.plane.Coincides fb.plane := hsame.flip_left
  have hdot : fb.flip.plane.normal.dot fa.flip.plane.normal
      = fb.plane.normal.dot fa.plane.normal := by
    simp [Vec3.dot]
  rw [keptByIntersection_eq]
  constructor
  · rw [(ha.invert hnonneg).countAt_clipTo heps (hb.invert hnonneg) hflip.symm.flip_left.symm, hdot]
  · exact hb.countAt_clipTo_invert_clipTo heps (ha.invert hnonneg) hflip.symm

/-- Joining what was kept adds nothing to the first operand at a point that the second one
has lost. -/
theorem countAt_joined (heps : Scalar.epsilon ≤ eps)
    (hinsert : kept.1.insert eps levels kept.2.polygons = some joined)
    (hsecond : countAt x kept.2.polygons = 0) :
    countAt x joined.polygons = countAt x kept.1.polygons := by
  have hnone := countAt_eq_zero_iff.mp hsecond
  rw [countAt_insert heps hinsert fun q hq hx => absurd ⟨q, hq, hx⟩ hnone, hsecond, add_zero]

end Tree

namespace Mesh

open Solids.Tree

variable {s : Settings ℝ} {a b : Mesh ℝ} {fa fb : Polygon ℝ} {x : Vec3 ℝ}

/-- **Faces that touch are resolved once.** At a point where two clean convex solids have
one face each, in one plane and away from all other planes, a union and an intersection have
one copy of it if both faces look the same way, and a difference has none; if they look
opposite ways it is the other way round. The point may be on the edge of either face, and
the corners of one solid anywhere near the planes of the other. -/
theorem countAt_of_touching (heps : Scalar.epsilon ≤ s.tolerance) (hmeets : meets a b = true)
    (hlevels : a.polygons.length + b.polygons.length ≤ s.levels)
    (ha : IsCleanSolid s.tolerance a.polygons) (hb : IsCleanSolid s.tolerance b.polygons)
    (hfa : IsFaceAt s.tolerance x a.polygons fa) (hfb : IsFaceAt s.tolerance x b.polygons fb)
    (hsame : fa.plane.Coincides fb.plane) :
    ∃ u d i, union s a b = some u ∧ difference s a b = some d ∧ intersection s a b = some i ∧
      (0 < fa.plane.normal.dot fb.plane.normal →
        countAt x u.polygons = 1 ∧ countAt x i.polygons = 1 ∧ countAt x d.polygons = 0) ∧
      (fa.plane.normal.dot fb.plane.normal < 0 →
        countAt x u.polygons = 0 ∧ countAt x i.polygons = 0 ∧ countAt x d.polygons = 1) := by
  classical
  have hnonneg : 0 ≤ s.tolerance := Scalar.epsilon_pos.le.trans heps
  obtain ⟨ta, hta, hoperandA⟩ := exists_tree? heps (List.ne_nil_of_mem hfa.mem) (ha.fits hnonneg)
    (by omega)
  obtain ⟨tb, htb, hoperandB⟩ := exists_tree? heps (List.ne_nil_of_mem hfb.mem) (hb.fits hnonneg)
    (by omega)
  have hfaceA : ta.HasFace s.tolerance x fa := hoperandA.hasFace heps ha hfa hta
  have hfaceB : tb.HasFace s.tolerance x fb := hoperandB.hasFace heps hb hfb htb
  obtain ⟨huFirst, huSecond⟩ := countAt_keptByUnion heps hfaceA hfaceB hsame
  obtain ⟨hdFirst, hdSecond⟩ :=
    countAt_keptByUnion heps (hfaceA.invert hnonneg) hfaceB hsame.flip_left
  obtain ⟨hiFirst, hiSecond⟩ := countAt_keptByIntersection heps hfaceA hfaceB hsame
  have hkeptU := hoperandA.keptByUnion heps hoperandB
  have hkeptD := hoperandA.keptByDifference heps hoperandB
  have hkeptI := hoperandA.keptByIntersection heps hoperandB
  obtain ⟨ju, hju⟩ := hkeptU.1.exists_insert heps hkeptU.2 hlevels
  obtain ⟨jd, hjd⟩ := hkeptD.1.exists_insert heps hkeptD.2 hlevels
  obtain ⟨ji, hji⟩ := hkeptI.1.exists_insert heps hkeptI.2 hlevels
  refine ⟨_, _, _, (union_eq_some hmeets hta htb).mpr ⟨ju, hju, rfl⟩,
    (difference_eq_some hmeets hta htb).mpr ⟨jd, hjd, rfl⟩,
    (intersection_eq_some hmeets hta htb).mpr ⟨ji, hji, rfl⟩, ?_⟩
  -- a difference is a union of what is not in the first solid, whose faces are turned over
  have hflip : fb.plane.normal.dot fa.flip.plane.normal
      = -fa.plane.normal.dot fb.plane.normal := by
    rw [Polygon.flip_plane, Plane.flip_normal, Vec3.dot_comm, Vec3.neg_dot]
  simp only [ofPolygons_polygons, countAt_invert, countAt_joined heps hju huSecond, huFirst,
    countAt_joined heps hjd hdSecond, keptByDifference, hdFirst, countAt_joined heps hji hiSecond,
    hiFirst, hflip, Vec3.dot_comm fb.plane.normal fa.plane.normal, neg_pos]
  constructor
  · intro hsameWay
    simp [hsameWay, hsameWay.not_gt]
  · intro hopposite
    simp [hopposite, hopposite.not_gt]

/-- Two cubes side by side: where they touch, their union has no face, and the difference
keeps the one of the first cube. -/
theorem countAt_of_touching_cubes : ∃ a b : Mesh ℝ, a = block ⟨0, 0, 0⟩ ⟨2, 2, 2⟩ ∧
    b = block ⟨2, 0, 0⟩ ⟨2, 2, 2⟩ ∧ meets a b = true ∧
      IsCleanSolid tolerance a.polygons ∧ IsCleanSolid tolerance b.polygons ∧
      ∃ u d i, union ⟨tolerance, 12⟩ a b = some u ∧ difference ⟨tolerance, 12⟩ a b = some d ∧
        intersection ⟨tolerance, 12⟩ a b = some i ∧ countAt ⟨2, 1, 1⟩ u.polygons = 0 ∧
        countAt ⟨2, 1, 1⟩ i.polygons = 0 ∧ countAt ⟨2, 1, 1⟩ d.polygons = 1 := by
  have h₀ : (0 : ℝ) ≤ 2 ∧ (0 : ℝ) ≤ 2 ∧ (0 : ℝ) ≤ 2 := by norm_num
  have hthick : ∀ d : Facing, 2 * tolerance < d.depth ⟨2, 2, 2⟩ := fun d => by
    rw [Facing.depth_cube]
    linarith [tolerance_lt_one]
  have hdeep : ∀ d : Facing, tolerance < d.depth ⟨2, 2, 2⟩ := fun d => by
    linarith [hthick d, tolerance_nonneg]
  have hclean : ∀ o, IsCleanSolid tolerance (cuboidFaces o ⟨2, 2, 2⟩) := fun o =>
    Facing.isCleanSolid_of_thick tolerance_nonneg epsilon_le_two_mul_tolerance h₀ hdeep
  have hplane := Facing.face_plane_of_thick tolerance_nonneg epsilon_le_two_mul_tolerance hdeep
  have hface : ∀ o d, d.center o ⟨2, 2, 2⟩ = ⟨2, 1, 1⟩ → IsFaceAt tolerance ⟨2, 1, 1⟩
      (cuboidFaces o ⟨2, 2, 2⟩) (Facing.face o ⟨2, 2, 2⟩ d) := fun o d hcenter => hcenter ▸
    Facing.isFaceAt_center tolerance_nonneg epsilon_le_two_mul_tolerance hthick d
  have hfa := hface ⟨0, 0, 0⟩ .right (by
    ext <;> norm_num [Facing.center, Facing.depth, Facing.normal, Vec3.unitX])
  have hfb := hface ⟨2, 0, 0⟩ .left (by
    ext <;> norm_num [Facing.center, Facing.depth, Facing.normal, Vec3.unitX])
  have hsame : (Facing.face ⟨0, 0, 0⟩ ⟨2, 2, 2⟩ .right).plane.Coincides
      (Facing.face ⟨2, 0, 0⟩ ⟨2, 2, 2⟩ .left).plane := by
    intro y
    simp only [hplane, Plane.signedDistance, Facing.plane, Facing.normal, Facing.level, Vec3.dot,
      Vec3.unitX, Vec3.neg_x, Vec3.neg_y, Vec3.neg_z]
    constructor <;> intro h <;> linarith
  have hopposite : (Facing.face ⟨0, 0, 0⟩ ⟨2, 2, 2⟩ .right).plane.normal.dot
      (Facing.face ⟨2, 0, 0⟩ ⟨2, 2, 2⟩ .left).plane.normal < 0 := by
    simp [hplane, Facing.normal, Vec3.dot, Vec3.unitX]
  have hmeets : meets (block ⟨0, 0, 0⟩ ⟨2, 2, 2⟩) (block ⟨2, 0, 0⟩ ⟨2, 2, 2⟩) = true := by
    rw [meets_block h₀ h₀]
    norm_num [BoundingBox.intersects]
  obtain ⟨u, d, i, hu, hd, hi, -, hcount⟩ := countAt_of_touching
    (s := ⟨tolerance, 12⟩) epsilon_le_tolerance hmeets le_rfl (hclean _) (hclean _) hfa hfb hsame
  exact ⟨_, _, rfl, rfl, hmeets, hclean _, hclean _, u, d, i, hu, hd, hi, hcount hopposite⟩

end Mesh

end Solids
