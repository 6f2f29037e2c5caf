import Solids.Proofs.Boolean
import Solids.Proofs.Kept
import Solids.Proofs.Slab
/-!
# Solids.Proofs.Bookkeeping

**The volumes of unions, differences and intersections.** What one operation keeps is
what another drops: the volumes of a union and an intersection add up to those of the
operands, and a difference has what the intersection lacks of the first one.

Main definitions:

* `Mesh.unionCuts`, `Mesh.differenceCuts`, `Mesh.intersectionCuts` — the cuts that the
  operations make, from building the two trees to joining what is left of them;
* `Polygon.LiesOn` — a polygon is on a plane as a whole.

Main statement: `Mesh.volume_of_decided`, for meshes of flat polygons when every cut is
decided and no face of one mesh lies on a plane of the other's tree. The polygons need
not be convex. `Mesh.exists_kept_of_decided` says what each operation has by itself.
-/

namespace Solids

/-- Every corner is exactly on the plane. -/
def Polygon.LiesOn (q : Polygon ℝ) (p : Plane ℝ) : Prop :=
  ∀ x ∈ q.corners, p.signedDistance x = 0

namespace Polygon.MadeOf

variable {eps : ℝ} {source : List (Polygon ℝ)} {q : Polygon ℝ} {p : Plane ℝ}

theorem isFlat (h : q.MadeOf eps source) (hsource : ∀ o ∈ source, o.IsFlat) : q.IsFlat := by
  obtain ⟨o, ho, hregion, -, hplane⟩ := h.origin
  have hflat := hsource o ho
  have hzero : ∀ x ∈ q.corners, o.plane.signedDistance x = 0 := by
    intro x hx
    refine Polygon.region_subset (s := {x | o.plane.signedDistance x = 0}) ?_ hflat.on_plane
      (hregion (mem_region_of_mem hx))
    simpa [Plane.signedDistance, sub_eq_zero] using Vec3.convex_level o.plane.normal o.plane.w
  rcases hplane with hplane | hplane
  · exact ⟨hplane ▸ hflat.normal_ne, fun x hx => hplane ▸ hzero x hx⟩
  · refine ⟨hplane ▸ neg_ne_zero.mpr hflat.normal_ne, fun x hx => ?_⟩
    rw [hplane, Plane.flip_signedDistance, hzero x hx, neg_zero]

theorem exists_apart (h : q.MadeOf eps source) (hsource : ∀ o ∈ source, o.IsFlat)
    (hlies : ∀ o ∈ source, ¬ o.LiesOn p) :
    ∃ y, q.plane.signedDistance y = 0 ∧ p.signedDistance y ≠ 0 := by
  obtain ⟨o, ho, -, -, hplane⟩ := h.origin
  obtain ⟨y, hy, hne⟩ : ∃ y ∈ o.corners, p.signedDistance y ≠ 0 := by
    simpa [LiesOn] using hlies o ho
  have hzero := (hsource o ho).on_plane y hy
  refine ⟨y, ?_, hne⟩
  rcases hplane with hplane | hplane
  · rw [hplane, hzero]
  · rw [hplane, Plane.flip_signedDistance, hzero, neg_zero]

end Polygon.MadeOf

namespace Tree

variable {eps : ℝ} {levels : ℕ} {a b : List (Polygon ℝ)} {t ta tb solid : Tree ℝ}

/-! ### Volumes of clipped and of inverted trees -/

theorem IsOperand.isFlat (h : t.IsOperand eps a) (ha : ∀ o ∈ a, o.IsFlat) :
    ∀ q ∈ t.polygons, q.IsFlat := fun q hq => (h.madeOf q hq).isFlat ha

theorem sixfold_invert (h : ∀ q ∈ t.polygons, q.IsFlat) :
    sixfold t.invert.polygons = -sixfold t.polygons := by
  rw [sixfold_perm polygons_invert, sixfold_map_flip h]

@[simp] theorem clipCuts_clipTo (q : Polygon ℝ) :
    (t.clipTo eps solid).clipCuts eps q = t.clipCuts eps q := by
  induction t generalizing q with
  | absent => rfl
  | node plane own front back ihFront ihBack =>
    cases plane with
    | none => rfl
    | some p => simp only [clipTo, clipCuts, funext ihFront, funext ihBack]

/-- Clipping a tree leaves what clipping leaves of its polygons. -/
theorem sixfold_clipTo (t solid : Tree ℝ) :
    sixfold (t.clipTo eps solid).polygons = (t.polygons.map (solid.keptVolume eps)).sum := by
  induction t with
  | absent => rfl
  | node plane own front back ihFront ihBack =>
    simp [clipTo, clip_eq_clipped, sixfold_clipped, ihFront, ihBack]

theorem mem_clipped_of_mem_clipTo {r : Polygon ℝ} (h : r ∈ (t.clipTo eps solid).polygons) :
    ∃ l ⊆ t.polygons, r ∈ solid.clipped eps l := by
  induction t with
  | absent => cases h
  | node plane own front back ihFront ihBack =>
    simp only [clipTo, polygons_node, List.mem_append, clip_eq_clipped] at h
    rcases h with (h | h) | h
    · exact ⟨own, by simp, h⟩
    · obtain ⟨l, hl, hr⟩ := ihBack h
      exact ⟨l, fun q hq => by simp [hl hq], hr⟩
    · obtain ⟨l, hl, hr⟩ := ihFront h
      exact ⟨l, fun q hq => by simp [hl hq], hr⟩

/-- Clipping a tree that was clipped and inverted once more changes no volume. -/
theorem sixfold_reclip (heps : Scalar.epsilon ≤ eps)
    (hgeneral : ∀ q ∈ t.polygons, solid.IsGeneral eps q)
    (hflip : ∀ r ∈ (t.clipTo eps solid).invert.polygons, solid.IsGeneral eps r) :
    sixfold ((t.clipTo eps solid).invert.clipTo eps solid).polygons
      = sixfold (t.clipTo eps solid).invert.polygons := by
  rw [sixfold_clipTo]
  refine congrArg List.sum (List.map_congr_left fun r hr => ?_)
  have hr' := hflip r hr
  obtain ⟨q, hq, rfl⟩ := mem_polygons_invert.mp hr
  obtain ⟨l, hl, hql⟩ := mem_clipped_of_mem_clipTo hq
  exact keptVolume_flip_of_mem_clipped heps (fun q hq => hgeneral q (hl hq)) hql hr'

/-! ### Volumes of what the operations join -/

theorem sixfold_keptByUnion_fst (ta tb : Tree ℝ) :
    sixfold (keptByUnion eps ta tb).1.polygons = (ta.polygons.map (tb.keptVolume eps)).sum :=
  sixfold_clipTo ta tb

theorem sixfold_keptByUnion_snd (heps : Scalar.epsilon ≤ eps) (hb : tb.IsOperand eps b)
    (hflat : ∀ o ∈ b, o.IsFlat) (hgeneral : ∀ q ∈ tb.polygons, ta.IsGeneral eps q)
    (hflip : ∀ r ∈ (tb.clipTo eps ta).invert.polygons, ta.IsGeneral eps r) :
    sixfold (keptByUnion eps ta tb).2.polygons = (tb.polygons.map (ta.keptVolume eps)).sum := by
  have hclip : (tb.clipTo eps ta).IsOperand eps b := hb.clipTo heps
  rw [keptByUnion_eq, sixfold_invert ((hclip.invert.clipTo heps).isFlat hflat),
    sixfold_reclip heps hgeneral hflip, sixfold_invert (hclip.isFlat hflat), sixfold_clipTo,
    neg_neg]

theorem sixfold_keptByIntersection_fst (heps : Scalar.epsilon ≤ eps) (hb : tb.IsOperand eps b)
    (hgeneral : ∀ q ∈ ta.invert.polygons, tb.IsGeneral eps q) :
    sixfold (keptByIntersection eps ta tb).1.polygons
      = sixfold ta.invert.polygons - (ta.invert.polygons.map (tb.keptVolume eps)).sum := by
  rw [keptByIntersection_eq, sixfold_clipTo, eq_sub_iff_add_eq, ← List.sum_map_add]
  refine congrArg List.sum (List.map_congr_left fun q hq => ?_)
  rw [add_comm, keptVolume_add_invert heps hb.grown hb.present (hgeneral q hq)]

theorem sixfold_keptByIntersection_snd (heps : Scalar.epsilon ≤ eps) (hb : tb.IsOperand eps b)
    (hflat : ∀ o ∈ b, o.IsFlat) (hgeneral : ∀ q ∈ tb.polygons, ta.invert.IsGeneral eps q)
    (hflip : ∀ r ∈ (tb.clipTo eps ta.invert).invert.polygons, ta.invert.IsGeneral eps r) :
    sixfold (keptByIntersection eps ta tb).2.polygons
      = -(tb.polygons.map (ta.invert.keptVolume eps)).sum := by
  rw [keptByIntersection_eq, sixfold_reclip heps hgeneral hflip,
    sixfold_invert ((hb.clipTo heps).isFlat hflat), sixfold_clipTo]

/-- Of the polygons of an inverted tree as much is kept, with the opposite sign. -/
theorem sum_keptVolume_invert (heps : Scalar.epsilon ≤ eps)
    (hgeneral : ∀ q ∈ t.polygons, solid.IsGeneral eps q)
    (hflip : ∀ q ∈ t.invert.polygons, solid.IsGeneral eps q) :
    (t.invert.polygons.map (solid.keptVolume eps)).sum
      = -(t.polygons.map (solid.keptVolume eps)).sum := by
  rw [(polygons_invert.map _).sum_eq, List.map_map, List.sum_neg, List.map_map]
  refine congrArg List.sum (List.map_congr_left fun q hq => ?_)
  exact keptVolume_of_opposite heps (.flip q) (hgeneral q hq)
    (hflip _ (mem_polygons_invert.mpr ⟨q, hq, rfl⟩))

/-! ### The cuts that are made -/

/-- The cuts that clipping a tree makes. -/
noncomputable def clipToCuts (eps : ℝ) (t solid : Tree ℝ) : List Cut :=
  t.polygons.flatMap (solid.clipCuts eps)

/-- The cuts that a union makes before it joins. -/
noncomputable def keptByUnionCuts (eps : ℝ) (ta tb : Tree ℝ) : List Cut :=
  let cutsA := clipToCuts eps ta tb
  let ta := ta.clipTo eps tb
  let cutsB := clipToCuts eps tb ta
  let tb := tb.clipTo eps ta
  cutsA ++ cutsB ++ clipToCuts eps tb.invert ta

/-- The cuts that a difference makes before it joins. -/
noncomputable def keptByDifferenceCuts (eps : ℝ) (ta tb : Tree ℝ) : List Cut :=
  keptByUnionCuts eps ta.invert tb

/-- The cuts that an intersection makes before it joins. -/
noncomputable def keptByIntersectionCuts (eps : ℝ) (ta tb : Tree ℝ) : List Cut :=
  let ta := ta.invert
  let cutsB := clipToCuts eps tb ta
  let tb := (tb.clipTo eps ta).invert
  let cutsA := clipToCuts eps ta tb
  let ta := ta.clipTo eps tb
  cutsB ++ cutsA ++ clipToCuts eps tb ta

theorem clipToCuts_clipTo (s : Tree ℝ) :
    clipToCuts eps t (solid.clipTo eps s) = clipToCuts eps t solid :=
  List.flatMap_congr fun q _ => clipCuts_clipTo q

theorem keptByUnionCuts_eq (ta tb : Tree ℝ) : keptByUnionCuts eps ta tb = clipToCuts eps ta tb
    ++ clipToCuts eps tb ta ++ clipToCuts eps (tb.clipTo eps ta).invert ta := by
  have hclip : tb.clipTo eps (ta.clipTo eps tb) = tb.clipTo eps ta :=
    clipTo_congr fun _ => clipped_clipTo
  rw [keptByUnionCuts, hclip, clipToCuts_clipTo, clipToCuts_clipTo]

theorem keptByIntersectionCuts_eq (ta tb : Tree ℝ) : keptByIntersectionCuts eps ta tb
    = clipToCuts eps tb ta.invert
      ++ clipToCuts eps ta.invert (tb.clipTo eps ta.invert).invert
      ++ clipToCuts eps (tb.clipTo eps ta.invert).invert ta.invert := by
  rw [keptByIntersectionCuts, clipToCuts_clipTo]

/-- The polygons of an operand are in general position to a solid if every cut that
clipping makes is decided and none of those it was made from lies on a plane of the
solid. -/
theorem IsOperand.isGeneral (h : t.IsOperand eps a) (hflat : ∀ o ∈ a, o.IsFlat)
    (hlies : ∀ o ∈ a, ∀ p ∈ solid.planes, ¬ o.LiesOn p)
    (hcuts : ∀ c ∈ clipToCuts eps t solid, c.IsDecided eps) :
    ∀ q ∈ t.polygons, solid.IsGeneral eps q := fun q hq => by
  refine ⟨h.isFlat hflat q hq, fun p hp => ?_, fun c hc => hcuts c ?_⟩
  · exact (h.madeOf q hq).exists_apart hflat fun o ho => hlies o ho p hp
  · exact List.mem_flatMap.mpr ⟨q, hq, hc⟩

theorem not_liesOn_invert (h : ∀ o ∈ a, ∀ p ∈ t.planes, ¬ o.LiesOn p) :
    ∀ o ∈ a, ∀ p ∈ t.invert.planes, ¬ o.LiesOn p := by
  intro o ho p hp
  obtain ⟨p, hp', rfl⟩ := List.mem_map.mp (planes_invert.mem_iff.mp hp)
  simpa [Polygon.LiesOn] using h o ho p hp'

end Tree

namespace Mesh

open Solids.Tree

variable {s : Settings ℝ} {a b m : Mesh ℝ} {ta tb joined : Tree ℝ}

/-- The cuts of a run of an operation: those of building the trees, those that leave
`kept`, and those of joining what is left. -/
noncomputable def runCuts (s : Settings ℝ) (kept : Tree ℝ → Tree ℝ → Tree ℝ × Tree ℝ)
    (keptCuts : Tree ℝ → Tree ℝ → List Cut) (a b : Mesh ℝ) : List Cut :=
  match a.tree? s, b.tree? s with
  | some ta, some tb =>
    insertCuts s.tolerance s.levels .empty a.polygons
      ++ insertCuts s.tolerance s.levels .empty b.polygons
      ++ keptCuts ta tb
      ++ insertCuts s.tolerance s.levels (kept ta tb).1 (kept ta tb).2.polygons
  | _, _ => []

/-- The cuts that a union of meshes that meet makes. -/
noncomputable def unionCuts (s : Settings ℝ) : Mesh ℝ → Mesh ℝ → List Cut :=
  runCuts s (keptByUnion s.tolerance) (keptByUnionCuts s.tolerance)

/-- The cuts that a difference of meshes that meet makes. -/
noncomputable def differenceCuts (s : Settings ℝ) : Mesh ℝ → Mesh ℝ → List Cut :=
  runCuts s (keptByDifference s.tolerance) (keptByDifferenceCuts s.tolerance)

/-- The cuts that an intersection of meshes that meet makes. -/
noncomputable def intersectionCuts (s : Settings ℝ) : Mesh ℝ → Mesh ℝ → List Cut :=
  runCuts s (keptByIntersection s.tolerance) (keptByIntersectionCuts s.tolerance)

/-- The tree of a mesh has its volume. -/
theorem sixfold_tree? (heps : Scalar.epsilon ≤ s.tolerance) (ht : m.tree? s = some ta)
    (hflat : ∀ q ∈ m.polygons, q.IsFlat)
    (hcuts : ∀ c ∈ insertCuts s.tolerance s.levels .empty m.polygons, c.IsDecided s.tolerance) :
    sixfold ta.polygons = sixfold m.polygons := by
  rw [sixfold_insert heps ht hflat hcuts]
  simp [Tree.empty]

/-- A run that joins two operands has their volumes. -/
theorem exists_joined (heps : Scalar.epsilon ≤ s.tolerance) {kept : Tree ℝ × Tree ℝ}
    {a b : List (Polygon ℝ)}
    (hkept : kept.1.IsOperand s.tolerance a ∧ kept.2.IsOperand s.tolerance b)
    (hflatA : ∀ o ∈ a, o.IsFlat) (hflatB : ∀ o ∈ b, o.IsFlat)
    (hlevels : a.length + b.length ≤ s.levels)
    (hcuts : ∀ c ∈ insertCuts s.tolerance s.levels kept.1 kept.2.polygons,
      c.IsDecided s.tolerance) :
    ∃ joined, kept.1.insert s.tolerance s.levels kept.2.polygons = some joined ∧
      sixfold joined.polygons = sixfold kept.1.polygons + sixfold kept.2.polygons ∧
      sixfold joined.invert.polygons
        = -(sixfold kept.1.polygons + sixfold kept.2.polygons) := by
  obtain ⟨joined, hjoined⟩ := hkept.1.exists_insert heps hkept.2 hlevels
  have hvolume := sixfold_insert heps hjoined (hkept.2.isFlat hflatB) hcuts
  have hflat : ∀ q ∈ joined.polygons, q.IsFlat := fun q hq =>
    (hkept.1.madeOf_insert heps hkept.2 hjoined hq).elim (fun h => h.isFlat hflatA)
      fun h => h.isFlat hflatB
  exact ⟨joined, hjoined, hvolume, by rw [sixfold_invert hflat, hvolume]⟩

/-! ### A polygon in front of the plane of another -/

/-- A single polygon that is on its own plane makes a single node. -/
theorem tree?_of_on {eps : ℝ} {q : Polygon ℝ} (levels : ℕ)
    (h : q.plane.sideOfPolygon eps q = .on) :
    (ofPolygons [q]).tree? ⟨eps, levels + 1⟩ = some (.node (some q.plane) [q] .absent .absent) := by
  rw [tree?, Tree.ofPolygons_eq (by simp)]
  exact insert_eq_of_splitter levels (by simpa [splitter, cheapest] using h)

/-- The only cut of inserting a single polygon that is on its own plane. -/
theorem insertCuts_on {eps : ℝ} {q : Polygon ℝ} (levels : ℕ)
    (h : q.plane.sideOfPolygon eps q = .on) :
    insertCuts eps (levels + 1) .empty [q] = [⟨q.plane, q⟩] ∧
      insertCuts eps (levels + 1) .absent [q] = [⟨q.plane, q⟩] := by
  have hempty : divider eps .empty q [] = q.plane := rfl
  have habsent : divider eps .absent q [] = q.plane := rfl
  constructor <;>
    simp only [insertCuts, hempty, habsent, Plane.splitAll, List.map_cons, List.map_nil,
      Plane.split_on h] <;>
    split <;> simp [insertCuts]

/-- What it makes of a single polygon in front of the root. -/
theorem insertCuts_front {eps : ℝ} {levels : ℕ} {p : Plane ℝ} {q : Polygon ℝ}
    {own : List (Polygon ℝ)} (h : p.sideOfPolygon eps q = .front) :
    insertCuts eps (levels + 1) (.node (some p) own .absent .absent) [q]
      = ⟨p, q⟩ :: insertCuts eps levels .absent [q] := by
  have hdivider : divider eps (.node (some p) own .absent .absent) q [] = p := rfl
  simp [insertCuts, hdivider, Plane.splitAll, Plane.split_front h, frontChild, backChild]

/-- A single node cuts a polygon once. -/
theorem clipCuts_leaf (eps : ℝ) (p : Plane ℝ) (own : List (Polygon ℝ)) (q : Polygon ℝ) :
    clipCuts eps (.node (some p) own .absent .absent) q = [⟨p, q⟩] := by
  simp [clipCuts, List.flatMap_eq_nil_iff]

section Front

variable {eps : ℝ} {p q : Polygon ℝ} (heps : 0 ≤ eps)
  (hpp : p.plane.sideOfPolygon eps p = .on) (hpq : p.plane.sideOfPolygon eps q = .front)
  (hqq : q.plane.sideOfPolygon eps q = .on)

include hpp hpq hqq

/-- The cuts of a union with a polygon that is in front of the other's plane: of building the
trees, of clipping either by the other, of clipping the second one turned over, and of joining. What
is cut off the first one comes to no other plane. -/
theorem unionCuts_of_front : unionCuts ⟨eps, 2⟩ (ofPolygons [p]) (ofPolygons [q]) =
    [⟨p.plane, p⟩, ⟨q.plane, q⟩, ⟨q.plane, p⟩, ⟨p.plane, q⟩, ⟨p.plane, q.flip⟩, ⟨p.plane, q⟩,
      ⟨q.plane, q⟩] := by
  have hpq' : p.plane.sideOfPolygon eps q.flip = .front :=
    (Polygon.IsOpposite.flip q).sideOfPolygon_eq.trans hpq
  simp [unionCuts, runCuts, tree?_of_on 1 hpp, tree?_of_on 1 hqq, (insertCuts_on 1 hpp).1,
    (insertCuts_on 1 hqq).1, (insertCuts_on 0 hqq).2, insertCuts_front hpq, keptByUnionCuts,
    keptByUnion, clipToCuts, clipCuts_leaf, clipTo, invert, clip_eq_clipped, clipped,
    Plane.splitAll, Pieces.inFront, isAbsent, Plane.split_front hpq, Plane.split_front hpq']

include heps

/-- Those of a difference. Nothing of the second one is left to be joined. -/
theorem differenceCuts_of_front : differenceCuts ⟨eps, 2⟩ (ofPolygons [p]) (ofPolygons [q]) =
    [⟨p.plane, p⟩, ⟨q.plane, q⟩, ⟨q.plane, p.flip⟩, ⟨p.plane.flip, q⟩] := by
  have hbehind : p.plane.flip.sideOfPolygon eps q = .back :=
    (Plane.sideOfPolygon_flip heps q).trans (congrArg Side.flip hpq)
  simp [differenceCuts, runCuts, tree?_of_on 1 hpp, tree?_of_on 1 hqq, (insertCuts_on 1 hpp).1,
    (insertCuts_on 1 hqq).1, insertCuts, keptByDifferenceCuts, keptByUnionCuts, keptByDifference,
    keptByUnion, clipToCuts, clipCuts_leaf, clipTo, invert, clip_eq_clipped, clipped,
    Plane.splitAll, Pieces.inFront, isAbsent, Plane.split_back hbehind]

/-- Those of an intersection, likewise. -/
theorem intersectionCuts_of_front : intersectionCuts ⟨eps, 2⟩ (ofPolygons [p]) (ofPolygons [q]) =
    [⟨p.plane, p⟩, ⟨q.plane, q⟩, ⟨p.plane.flip, q⟩, ⟨q.plane.flip, p.flip⟩] := by
  have hbehind : p.plane.flip.sideOfPolygon eps q = .back :=
    (Plane.sideOfPolygon_flip heps q).trans (congrArg Side.flip hpq)
  simp [intersectionCuts, runCuts, tree?_of_on 1 hpp, tree?_of_on 1 hqq, (insertCuts_on 1 hpp).1,
    (insertCuts_on 1 hqq).1, insertCuts, keptByIntersectionCuts, keptByIntersection, clipToCuts,
    clipCuts_leaf, clipTo, invert, clip_eq_clipped, clipped, Plane.splitAll, Pieces.inFront,
    isAbsent, Plane.split_back hbehind]

/-- All cuts of the three are decided if those of the two by their planes are. -/
theorem isDecided_of_front
    (hdecides : ∀ r ∈ [p, q], ∀ r' ∈ [p, q], r.plane.Decides eps r') :
    ∀ c ∈ unionCuts ⟨eps, 2⟩ (ofPolygons [p]) (ofPolygons [q])
      ++ differenceCuts ⟨eps, 2⟩ (ofPolygons [p]) (ofPolygons [q])
      ++ intersectionCuts ⟨eps, 2⟩ (ofPolygons [p]) (ofPolygons [q]), c.IsDecided eps := by
  rw [unionCuts_of_front hpp hpq hqq, differenceCuts_of_front heps hpp hpq hqq,
    intersectionCuts_of_front heps hpp hpq hqq]
  simp only [List.forall_mem_cons, List.not_mem_nil, false_imp_iff, implies_true, and_true]
    at hdecides
  simp [Cut.IsDecided, hdecides]

end Front

/-! ### Two triangles, one across the other -/

/-- A level triangle at the height `1`, `r` long, with its tip above the origin. -/
noncomputable def levelSheet (r : ℝ) : Polygon ℝ :=
  ⟨[⟨⟨0, 0, 1⟩, Vec3.unitZ⟩, ⟨⟨r, -1, 1⟩, Vec3.unitZ⟩, ⟨⟨r, 1, 1⟩, Vec3.unitZ⟩], ⟨Vec3.unitZ, 1⟩⟩

/-- An upright triangle, `h` high, that stands at the same height. -/
noncomputable def uprightSheet (h : ℝ) : Polygon ℝ :=
  ⟨[⟨⟨1, -1, 1⟩, Vec3.unitX⟩, ⟨⟨1, 1, 1⟩, Vec3.unitX⟩, ⟨⟨1, 0, 1 + h⟩, Vec3.unitX⟩],
    ⟨Vec3.unitX, 1⟩⟩

section Sheets

variable {eps r h : ℝ}

@[simp] theorem levelSheet_corners :
    (levelSheet r).corners = [⟨0, 0, 1⟩, ⟨r, -1, 1⟩, ⟨r, 1, 1⟩] := rfl

@[simp] theorem uprightSheet_corners :
    (uprightSheet h).corners = [⟨1, -1, 1⟩, ⟨1, 1, 1⟩, ⟨1, 0, 1 + h⟩] := rfl

@[simp] theorem levelSheet_signedDistance (x : Vec3 ℝ) :
    (levelSheet r).plane.signedDistance x = x.z - 1 := by
  simp [levelSheet, Plane.signedDistance, Vec3.dot, Vec3.unitZ]

@[simp] theorem uprightSheet_signedDistance (x : Vec3 ℝ) :
    (uprightSheet h).plane.signedDistance x = x.x - 1 := by
  simp [uprightSheet, Plane.signedDistance, Vec3.dot, Vec3.unitX]

theorem meets_sheets (hr : 1 < r) (hh : 0 < h) :
    meets (ofPolygons [levelSheet r]) (ofPolygons [uprightSheet h]) = true := by
  have hr0 : 0 ≤ r := by linarith
  have hlevel : (ofPolygons [levelSheet r]).boundingBox = ⟨⟨0, -1, 1⟩, ⟨r, 1, 1⟩⟩ := by
    simp [boundingBox, ofPolygons, positions, levelSheet, BoundingBox.ofPoints,
      BoundingBox.around, BoundingBox.enclose, hr0]
  have hupright : (ofPolygons [uprightSheet h]).boundingBox = ⟨⟨1, -1, 1⟩, ⟨1, 1, 1 + h⟩⟩ := by
    simp [boundingBox, ofPolygons, positions, uprightSheet, BoundingBox.ofPoints,
      BoundingBox.around, BoundingBox.enclose, hh.le]
  rw [meets, hlevel, hupright]
  simp [isEmpty, BoundingBox.intersects, hr.le, hh.le]

theorem isFlat_levelSheet : (levelSheet r).IsFlat :=
  ⟨by simp [levelSheet, Vec3.ext_iff, Vec3.unitZ], by simp⟩

theorem isFlat_uprightSheet : (uprightSheet h).IsFlat :=
  ⟨by simp [uprightSheet, Vec3.ext_iff, Vec3.unitX], by simp⟩

theorem not_liesOn_sheets (hh : 0 < h) : ¬ (levelSheet r).LiesOn (uprightSheet h).plane ∧
    ¬ (uprightSheet h).LiesOn (levelSheet r).plane := by
  norm_num [Polygon.LiesOn, hh.ne']

theorem sixfoldVolume_levelSheet : (levelSheet r).sixfoldVolume = 2 * r := by
  simp [Polygon.sixfoldVolume, levelSheet, Polygon.triangles, Triangle.sixfoldVolume, Vec3.dot,
    Vec3.cross]
  ring

theorem sixfoldVolume_uprightSheet : (uprightSheet h).sixfoldVolume = 2 * h := by
  simp [Polygon.sixfoldVolume, uprightSheet, Polygon.triangles, Triangle.sixfoldVolume, Vec3.dot,
    Vec3.cross]
  ring

theorem decides_sheets (hlt : eps < 1) (hr : 1 + eps < r) (hh : eps < h) :
    ∀ q ∈ [levelSheet r, uprightSheet h], ∀ q' ∈ [levelSheet r, uprightSheet h],
      q.plane.Decides eps q' := by
  have hr' : eps < |r - 1| := lt_abs.mpr (.inl (by linarith))
  have hh' : eps < |h| := lt_abs.mpr (.inl hh)
  simp [Plane.Decides, hlt, hr', hh']

/-- Each triangle is on its own plane. The upright one is in front of the plane of the level one,
and its own plane goes through that. -/
theorem sideOfPolygon_sheets (heps : 0 ≤ eps) (hlt : eps < 1) (hr : 1 + eps < r) (hh : eps < h) :
    (levelSheet r).plane.sideOfPolygon eps (levelSheet r) = .on ∧
      (uprightSheet h).plane.sideOfPolygon eps (uprightSheet h) = .on ∧
      (levelSheet r).plane.sideOfPolygon eps (uprightSheet h) = .front ∧
      (uprightSheet h).plane.sideOfPolygon eps (levelSheet r) = .across := by
  refine ⟨?_, ?_, ?_, ?_⟩
  · simp [Plane.sideOfPolygon_eq_on, Plane.sideOf_eq_on, heps]
  · simp [Plane.sideOfPolygon_eq_on, Plane.sideOf_eq_on, heps]
  · simp only [Plane.sideOfPolygon_eq_front, uprightSheet_corners, levelSheet_signedDistance,
      List.forall_mem_cons, List.exists_mem_cons_iff]
    exact ⟨⟨by linarith, by linarith, by linarith, by simp⟩, .inr (.inr (.inl (by linarith)))⟩
  · simp only [Plane.sideOfPolygon_eq_across, Plane.sideOf_eq_front heps, Plane.sideOf_eq_back,
      levelSheet_corners, uprightSheet_signedDistance, List.exists_mem_cons_iff]
    exact ⟨.inr (.inl (by linarith)), .inl (by linarith)⟩

/-- The corners of the piece of the level triangle that is in front of the upright one. -/
theorem cutOutline_levelSheet (heps : 0 ≤ eps) (hlt : eps < 1) (hr : 1 + eps < r) :
    (uprightSheet h).plane.cutOutline eps .back (levelSheet r).corners
      = [⟨1, -r⁻¹, 1⟩, ⟨r, -1, 1⟩, ⟨r, 1, 1⟩, ⟨1, r⁻¹, 1⟩] := by
  have hback : (uprightSheet h).plane.sideOf eps ⟨0, 0, 1⟩ = .back := by
    rw [Plane.sideOf_eq_back, uprightSheet_signedDistance]
    linarith
  have hfront (y : ℝ) : (uprightSheet h).plane.sideOf eps ⟨r, y, 1⟩ = .front := by
    rw [Plane.sideOf_eq_front heps, uprightSheet_signedDistance]
    linarith
  have hmeet (y : ℝ) : (uprightSheet h).plane.meet ⟨0, 0, 1⟩ ⟨r, y, 1⟩ = ⟨1, y * r⁻¹, 1⟩ := by
    have hne : r ≠ 0 := by linarith
    simp [Plane.meet, Vec3.ext_iff, hne, mul_comm]
    field_simp
    ring
  simp [Plane.cutOutline, Plane.between, Plane.keep, Plane.crossings, hback, hfront, Side.join,
    hmeet, Plane.meet_comm _ ⟨0, 0, 1⟩]

theorem sixfoldVolume_piece_levelSheet (heps : Scalar.epsilon ≤ eps) (hlt : eps < 1)
    (hr : 1 + eps < r) :
    ((uprightSheet h).plane.piece eps .back (levelSheet r)).sixfoldVolume = 2 * (r - r⁻¹) := by
  have hnonneg := Scalar.epsilon_pos.le.trans heps
  have hne : r ≠ 0 := by linarith
  have hflat := (isFlat_levelSheet (r := r)).piece
    (Plane.piece_pieceOf (p := (uprightSheet h).plane) heps .back)
  have hcorners : ((uprightSheet h).plane.piece eps .back (levelSheet r)).corners
      = [⟨1, -r⁻¹, 1⟩, ⟨r, -1, 1⟩, ⟨r, 1, 1⟩, ⟨1, r⁻¹, 1⟩] :=
    (Plane.map_pos_part heps _).trans (cutOutline_levelSheet hnonneg hlt hr)
  rw [Polygon.sixfoldVolume_eq hflat 0, hcorners]
  norm_num [Outline.area, Plane.edges, Vec3.turn, Plane.piece, levelSheet, Vec3.unitZ, Vec3.dot,
    Vec3.cross]
  field_simp
  ring

/-- Of the level triangle that piece is kept by the upright one, and of that everything by the
level one. -/
theorem keptVolume_sheets (heps : Scalar.epsilon ≤ eps) (hlt : eps < 1) (hr : 1 + eps < r)
    (hh : eps < h) {own : List (Polygon ℝ)} :
    (node (some (uprightSheet h).plane) own absent absent).keptVolume eps (levelSheet r)
        = 2 * (r - r⁻¹) ∧
      (node (some (levelSheet r).plane) own absent absent).keptVolume eps (uprightSheet h)
        = 2 * h := by
  obtain ⟨-, -, hfront, hacross⟩ :=
    sideOfPolygon_sheets (Scalar.epsilon_pos.le.trans heps) hlt hr hh
  constructor
  · rw [keptVolume_across heps hacross, keptVolume, add_zero,
      ← sixfoldVolume_piece_levelSheet heps hlt hr]
    rfl
  · rw [keptVolume_front hfront, ← sixfoldVolume_uprightSheet]
    rfl

end Sheets

/-! ### The three volumes -/

/-- What the operations have, in what either tree keeps of the polygons of the other. -/
theorem exists_kept_of_decided (heps : Scalar.epsilon ≤ s.tolerance) (hmeets : meets a b = true)
    (hlevels : a.polygons.length + b.polygons.length ≤ s.levels)
    (hflat : ∀ q ∈ a.polygons ++ b.polygons, q.IsFlat)
    (hcuts : ∀ c ∈ unionCuts s a b ++ differenceCuts s a b ++ intersectionCuts s a b,
      c.IsDecided s.tolerance)
    (hlies : ∀ ta tb, a.tree? s = some ta → b.tree? s = some tb →
      (∀ q ∈ a.polygons, ∀ p ∈ tb.planes, ¬ q.LiesOn p) ∧
        ∀ q ∈ b.polygons, ∀ p ∈ ta.planes, ¬ q.LiesOn p) :
    ∃ ta tb u d i, a.tree? s = some ta ∧ b.tree? s = some tb ∧ union s a b = some u ∧
      difference s a b = some d ∧ intersection s a b = some i ∧
      sixfold u.polygons = (ta.polygons.map (tb.keptVolume s.tolerance)).sum
        + (tb.polygons.map (ta.keptVolume s.tolerance)).sum ∧
      sixfold d.polygons = (ta.polygons.map (tb.keptVolume s.tolerance)).sum
        - (sixfold b.polygons - (tb.polygons.map (ta.keptVolume s.tolerance)).sum) ∧
      sixfold i.polygons = sixfold a.polygons - (ta.polygons.map (tb.keptVolume s.tolerance)).sum
        + (sixfold b.polygons - (tb.polygons.map (ta.keptVolume s.tolerance)).sum) := by
  have hnonneg := Scalar.epsilon_pos.le.trans heps
  obtain ⟨hnea, hneb⟩ := ne_nil_of_meets hmeets
  have hflatA := fun q hq => hflat q (List.mem_append_left _ hq)
  have hflatB := fun q hq => hflat q (List.mem_append_right _ hq)
  obtain ⟨ta, hta, ha⟩ := exists_tree? heps hnea (fun q hq => (hflatA q hq).fits hnonneg) (by omega)
  obtain ⟨tb, htb, hb⟩ := exists_tree? heps hneb (fun q hq => (hflatB q hq).fits hnonneg) (by omega)
  obtain ⟨hliesA, hliesB⟩ := hlies ta tb hta htb
  simp only [unionCuts, differenceCuts, intersectionCuts, runCuts, hta, htb, keptByDifferenceCuts,
    keptByUnionCuts_eq, keptByIntersectionCuts_eq, List.mem_append, or_imp, forall_and] at hcuts
  obtain ⟨⟨⟨⟨⟨hbuildA, hbuildB⟩, ⟨hcutA, hcutB⟩, hrecutB⟩, hjoinU⟩,
    ⟨-, ⟨hcutA', hcutB'⟩, hrecutB'⟩, hjoinD⟩, -, hjoinI⟩ := hcuts
  have hgenA := ha.isGeneral hflatA hliesA hcutA
  have hgenA' := ha.invert.isGeneral hflatA hliesA hcutA'
  have hgenB := hb.isGeneral hflatB hliesB hcutB
  have hgenB' := hb.isGeneral hflatB (not_liesOn_invert hliesB) hcutB'
  have hregenB := (hb.clipTo heps).invert.isGeneral hflatB hliesB hrecutB
  have hregenB' := (hb.clipTo heps).invert.isGeneral hflatB (not_liesOn_invert hliesB) hrecutB'
  obtain ⟨ju, hju, hu, -⟩ :=
    exists_joined heps (ha.keptByUnion heps hb) hflatA hflatB hlevels hjoinU
  obtain ⟨jd, hjd, -, hd⟩ := exists_joined heps (ha.keptByDifference heps hb) hflatA hflatB hlevels
    hjoinD
  obtain ⟨ji, hji, -, hi⟩ := exists_joined heps (ha.keptByIntersection heps hb) hflatA hflatB
    hlevels hjoinI
  -- everything is said in what `tb` keeps of `ta`, and `ta` and its inverse of `tb`
  rw [sixfold_keptByUnion_fst, sixfold_keptByUnion_snd heps hb hflatB hgenB hregenB] at hu
  rw [keptByDifference, sixfold_keptByUnion_fst, sum_keptVolume_invert heps hgenA hgenA',
    sixfold_keptByUnion_snd heps hb hflatB hgenB' hregenB'] at hd
  rw [sixfold_keptByIntersection_fst heps hb hgenA', sum_keptVolume_invert heps hgenA hgenA',
    sixfold_keptByIntersection_snd heps hb hflatB hgenB' hregenB',
    sixfold_invert (ha.isFlat hflatA)] at hi
  have hwholeB : (tb.polygons.map (ta.keptVolume s.tolerance)).sum
      + (tb.polygons.map (ta.invert.keptVolume s.tolerance)).sum = sixfold tb.polygons := by
    rw [← List.sum_map_add]
    refine congrArg List.sum (List.map_congr_left fun q hq => ?_)
    exact keptVolume_add_invert heps ha.grown ha.present (hgenB q hq)
  have hvolumeA := sixfold_tree? heps hta hflatA hbuildA
  have hvolumeB := sixfold_tree? heps htb hflatB hbuildB
  refine ⟨ta, tb, _, _, _, hta, htb, (union_eq_some hmeets hta htb).mpr ⟨ju, hju, rfl⟩,
    (difference_eq_some hmeets hta htb).mpr ⟨jd, hjd, rfl⟩,
    (intersection_eq_some hmeets hta htb).mpr ⟨ji, hji, rfl⟩, hu, ?_, ?_⟩
  · rw [ofPolygons_polygons]
    linarith
  · rw [ofPolygons_polygons]
    linarith

/-- **Volumes add up.** For two meshes of flat polygons whose bounding boxes meet, if
every cut of the three runs is decided and no face of one lies on a plane of the
other's tree, the volumes of union and intersection are those of the meshes together,
and the difference has what the intersection lacks of the first mesh. -/
theorem volume_of_decided (heps : Scalar.epsilon ≤ s.tolerance) (hmeets : meets a b = true)
    (hlevels : a.polygons.length + b.polygons.length ≤ s.levels)
    (hflat : ∀ q ∈ a.polygons ++ b.polygons, q.IsFlat)
    (hcuts : ∀ c ∈ unionCuts s a b ++ differenceCuts s a b ++ intersectionCuts s a b,
      c.IsDecided s.tolerance)
    (hlies : ∀ ta tb, a.tree? s = some ta → b.tree? s = some tb →
      (∀ q ∈ a.polygons, ∀ p ∈ tb.planes, ¬ q.LiesOn p) ∧
        ∀ q ∈ b.polygons, ∀ p ∈ ta.planes, ¬ q.LiesOn p) :
    ∃ u d i, union s a b = some u ∧ difference s a b = some d ∧ intersection s a b = some i ∧
      u.volume + i.volume = a.volume + b.volume ∧ d.volume = a.volume - i.volume := by
  obtain ⟨ta, tb, u, d, i, -, -, hu, hd, hi, hunion, hdifference, hintersection⟩ :=
    exists_kept_of_decided heps hmeets hlevels hflat hcuts hlies
  refine ⟨u, d, i, hu, hd, hi, ?_⟩
  rw [volume_eq, volume_eq, volume_eq, volume_eq, volume_eq, hunion, hdifference, hintersection]
  constructor <;> ring

/-- The upright triangle cuts the level one. What is in front of it has the volume `1 / 2`, what is
behind it `1 / 6`, and the upright triangle is outside of the level one. -/
theorem volume_of_decided_sheets : ∃ a b u d i : Mesh ℝ,
    a = ofPolygons [levelSheet 2] ∧ b = ofPolygons [uprightSheet 2] ∧ meets a b = true ∧
    (uprightSheet 2).plane.sideOfPolygon (1 / 100000) (levelSheet 2) = .across ∧
    union ⟨1 / 100000, 2⟩ a b = some u ∧ difference ⟨1 / 100000, 2⟩ a b = some d ∧
    intersection ⟨1 / 100000, 2⟩ a b = some i ∧
    u.volume + i.volume = a.volume + b.volume ∧ d.volume = a.volume - i.volume ∧
    a.volume = 2 / 3 ∧ b.volume = 2 / 3 ∧ u.volume = 7 / 6 ∧ d.volume = 1 / 2 ∧
    i.volume = 1 / 6 := by
  have heps : Scalar.epsilon ≤ (1 / 100000 : ℝ) := by
    rw [Scalar.epsilon_real]
    norm_num
  have hnonneg : (0 : ℝ) ≤ 1 / 100000 := by norm_num
  have hlt : (1 / 100000 : ℝ) < 1 := by norm_num
  have hlong : 1 + 1 / 100000 < (2 : ℝ) := by norm_num
  have hhigh : 1 / 100000 < (2 : ℝ) := by norm_num
  obtain ⟨hon, hon', hfront, hacross⟩ := sideOfPolygon_sheets hnonneg hlt hlong hhigh
  have hmeets := meets_sheets one_lt_two two_pos
  have hflat : ∀ q ∈ [levelSheet 2] ++ [uprightSheet 2], q.IsFlat := by
    simpa using ⟨isFlat_levelSheet, isFlat_uprightSheet⟩
  have hcuts := isDecided_of_front hnonneg hon hfront hon' (decides_sheets hlt hlong hhigh)
  have hlies : ∀ ta tb, (ofPolygons [levelSheet 2]).tree? ⟨1 / 100000, 2⟩ = some ta →
      (ofPolygons [uprightSheet 2]).tree? ⟨1 / 100000, 2⟩ = some tb →
      (∀ q ∈ [levelSheet 2], ∀ p ∈ tb.planes, ¬ q.LiesOn p) ∧
        ∀ q ∈ [uprightSheet 2], ∀ p ∈ ta.planes, ¬ q.LiesOn p := by
    intro ta tb hta htb
    obtain rfl := Option.some.inj ((tree?_of_on 1 hon).symm.trans hta)
    obtain rfl := Option.some.inj ((tree?_of_on 1 hon').symm.trans htb)
    simpa [Tree.planes] using not_liesOn_sheets two_pos
  obtain ⟨u, d, i, hu, hd, hi, hsum, hrest⟩ :=
    volume_of_decided heps hmeets le_rfl hflat hcuts hlies
  have hvolume : u.volume = 7 / 6 := by
    obtain ⟨ta, tb, u', -, -, hta, htb, hu', -, -, hkept, -, -⟩ :=
      exists_kept_of_decided heps hmeets le_rfl hflat hcuts hlies
    obtain rfl := Option.some.inj ((tree?_of_on 1 hon).symm.trans hta)
    obtain rfl := Option.some.inj ((tree?_of_on 1 hon').symm.trans htb)
    obtain rfl := Option.some.inj (hu'.symm.trans hu)
    rw [volume_eq, hkept]
    norm_num [keptVolume_sheets heps hlt hlong hhigh]
  have hlevel : (ofPolygons [levelSheet 2]).volume = 2 / 3 := by
    rw [volume_eq, ofPolygons_polygons]
    norm_num [sixfold, sixfoldVolume_levelSheet]
  have hupright : (ofPolygons [uprightSheet 2]).volume = 2 / 3 := by
    rw [volume_eq, ofPolygons_polygons]
    norm_num [sixfold, sixfoldVolume_uprightSheet]
  exact ⟨_, _, u, d, i, rfl, rfl, hmeets, hacross, hu, hd, hi, hsum, hrest, hlevel, hupright,
    hvolume, by linarith, by linarith⟩

end Mesh

end Solids
