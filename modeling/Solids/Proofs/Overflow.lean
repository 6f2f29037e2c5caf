import Solids.Recipe.Pipeline
import Solids.Proofs.FreshBox
import Solids.Proofs.Lossless
import Solids.Proofs.MadeFrom
import Solids.Proofs.StlForms
/-!
# Solids.Proofs.Overflow

**Where positions can get lost.** The modeller looks at the coordinates that a motion gives, and
refuses it if one of them is not finite. It does not look at those of a shape, whose numbers it has
checked before, nor at those of a combination, and there sums and products may leave the range of
numbers.

Main definitions:

* `Mesh.IsFinite` — all corners are at finite positions;
* `Shape.HasCorner` — the positions that are computed for a shape;
* `Node.Overflows` — for one of the shapes of a node another position is computed, or one of its
  combinations has such corners while its operands have none;
* `Compiled.ShowsFinite` — what is reported and written of a solid are finite numbers.

Main statement: `Recipe.showsFinite_or_overflows`.
-/

namespace Solids

/-! ### Finite positions -/

namespace Double

variable {x : Double}

/-- What is finite for geometry is a finite double. -/
theorem isFinite_of_scalar (h : Scalar.isFinite x = true) : x.isFinite = true := by
  obtain ⟨most, hmost, top, htop, hbottom, rfl, hnegative, hreading, hreading'⟩ := exists_largest_eq
  obtain ⟨sign, -, hunpack⟩ := Reading.unpack_eq_finite hreading (by decide)
  obtain ⟨sign', -, hunpack'⟩ := Reading.unpack_eq_finite hreading' (by decide)
  simp only [Scalar.isFinite, hmost, hnegative, Bool.and_eq_true, decide_eq_true_eq] at h
  obtain ⟨hlower, hupper⟩ := h
  cases x with
  | nan negative => exact absurd hupper (not_nan_le negative _)
  | number a ha =>
    have hnumber := unpack_ne_notANumber ha
    rw [le_iff_rank] at hlower hupper
    simp only [rank, hunpack, hunpack'] at hlower hupper
    show a.toModel.unpack.isFinite = true
    -- the ranks of infinities are beyond those of all other numbers
    cases hx : a.toModel.unpack with
    | notANumber => exact absurd hx hnumber
    | zero s => rfl
    | finite s mantissa exponent hm => rfl
    | infinity s =>
      rw [hx] at hlower hupper
      cases s <;> cases sign <;> cases sign' <;>
        simp [Solids.rank, rank_le_rank] at hlower hupper

end Double

theorem Vec3.isFinite_iff {v : Vec3 Double} :
    v.isFinite = true ↔ ∀ x ∈ v.toList, x.isFinite = true := by
  have hfinite : ∀ x : Double, Scalar.isFinite x = true ↔ x.isFinite = true :=
    fun x => ⟨Double.isFinite_of_scalar, Double.scalar_isFinite⟩
  simp [Vec3.isFinite, Vec3.all, toList, hfinite, and_assoc]

namespace Mesh

variable {K : Type} [Scalar K] {m a : Mesh K}

/-- All corners are at finite positions. -/
def IsFinite (m : Mesh K) : Prop := ∀ p ∈ m.positions, p.isFinite = true

theorem isFinite_iff : m.IsFinite ↔ ∀ q ∈ m.polygons, ∀ v ∈ q.vertices, v.pos.isFinite = true := by
  simp only [IsFinite, positions, List.mem_flatMap, List.mem_map]
  constructor
  · intro h q hq v hv
    exact h _ ⟨q, hq, v, hv, rfl⟩
  · rintro h p ⟨q, hq, v, hv, rfl⟩
    exact h q hq v hv

/-- **What is moved is finite**, or the motion is refused. -/
theorem isFinite_of_transform {matrix : Mat4 K} (h : a.transform matrix = .ok m) :
    m.IsFinite := by
  obtain ⟨moved, rfl, hfinite⟩ := exists_of_transform_eq_ok h
  rw [isFinite_iff]
  intro q hq
  exact List.all_eq_true.mp (hfinite q hq)

/-- A plane of some faces cuts an edge between two positions that are made from these faces and are
finite, and the cut is not. -/
def LosesCut (faces : List (Polygon K)) : Prop :=
  ∃ (p : Plane K) (a b : SidedVertex K) (v : Vertex K), IsPlaneOf faces p ∧
    (IsCornerOf faces a.vertex.pos ∧ a.vertex.pos.isFinite = true) ∧
    (IsCornerOf faces b.vertex.pos ∧ b.vertex.pos.isFinite = true) ∧
    p.crossing? a b = some v ∧ ¬ v.pos.isFinite = true

/-- **A combination of finite meshes is finite**, unless a cut is lost. -/
theorem losesCut_of_combineMeshes {s : Settings K} {combination : Combination}
    {operands : List (Mesh K)}
    (h : (Kernel.combineMeshes s combination operands).run = some (.ok m))
    (hoperands : ∀ b ∈ operands, b.IsFinite) (hm : ¬ m.IsFinite) :
    LosesCut (operands.flatMap Mesh.polygons) := by
  rw [isFinite_iff] at hm
  push Not at hm
  obtain ⟨q, hq, v, hv, hlost⟩ := hm
  have hcorner := (Kernel.isMadeFrom_combineMeshes h q hq).corners v hv
  refine hcorner.exists_crossing (P := fun x => x.isFinite = true) hlost ?_
  intro f hf
  obtain ⟨b, hb, hf⟩ := List.mem_flatMap.mp hf
  exact isFinite_iff.mp (hoperands b hb) f hf

end Mesh

/-! ### Corners of shapes -/

/-- A position that is computed for a corner of a shape. -/
inductive Shape.HasCorner {K : Type} [Scalar K] [Trig K] : Shape K → Vec3 K → Prop where
  /-- A box has corners at distances from its lowest one that are zero or a length. -/
  | box {size : Vec3 K} {center : Option (Vec3 K)} {x y z : K} : x = 0 ∨ x = size.x →
      y = 0 ∨ y = size.y → z = 0 ∨ z = size.z → HasCorner (.cuboid size center)
        (center.getD 0 - size.scale Scalar.half + ⟨x, y, z⟩)
  /-- A round shape has those of its grid. -/
  | round {s : Shape K} {i j : ℕ} : s.service ≠ .cuboid → i ≤ s.slices → j ≤ s.layers →
      HasCorner s (s.gridPoint i j)

namespace Mesh

variable {K : Type} [Scalar K] [Trig K] {s : Shape K} {m : Mesh K} {p : Vec3 K}

theorem hasCorner_of_mem_cuboidFaces {size : Vec3 K} {center : Option (Vec3 K)} {q : Polygon K}
    (hq : q ∈ cuboidFaces (center.getD 0 - size.scale Scalar.half) size) :
    ∀ v ∈ q.vertices, (Shape.cuboid size center).HasCorner v.pos := by
  intro v hv
  simp only [cuboidFaces, List.map_cons, List.map_nil, List.mem_cons, List.not_mem_nil,
    or_false] at hq
  rcases hq with rfl | rfl | rfl | rfl | rfl | rfl <;>
    simp only [Polygon.ofVertices, List.mem_cons, List.not_mem_nil, or_false] at hv <;>
    rcases hv with rfl | rfl | rfl | rfl <;>
    exact .box (by simp) (by simp) (by simp)

theorem hasCorner_of_round (hround : s.service ≠ .cuboid) (h : ofShape s = .ok m)
    (hp : p ∈ m.positions) : s.HasCorner p := by
  obtain ⟨-, harranges⟩ := arranges_of_ofShape hround h
  obtain ⟨q, hq, hp⟩ := List.mem_flatMap.mp hp
  refine harranges.forall_mem (P := fun outline => ∀ p ∈ outline, s.HasCorner p) ?_ ?_ _
    (List.mem_map_of_mem hq) p hp
  · intro l r hrotated hr p hp
    exact hr p (hrotated.mem_iff.mp hp)
  · intro i hi j hj p hp
    obtain ⟨i', j', hi', hj', rfl⟩ := Grid.exists_of_mem_cell hp
    exact .round hround (by omega) (by omega)

/-- The corners of a shape are those that are computed for it. -/
theorem hasCorner_of_ofShape (h : ofShape s = .ok m) (hp : p ∈ m.positions) : s.HasCorner p := by
  by_cases hround : s.service ≠ .cuboid
  · exact hasCorner_of_round hround h hp
  cases s with
  | cuboid size center =>
    rcases eq_of_cuboid_eq_ok h with rfl | rfl
    · cases hp
    · obtain ⟨q, hq, hp⟩ := List.mem_flatMap.mp hp
      obtain ⟨v, hv, rfl⟩ := List.mem_map.mp hp
      exact hasCorner_of_mem_cuboidFaces hq v hv
  | sphere radius center segments => exact absurd (by simp [Shape.service]) hround
  | cylinder height radius center segments => exact absurd (by simp [Shape.service]) hround

end Mesh

/-! ### Nodes -/

/-- The node is made into the mesh. -/
def Node.Makes {K : Type} [Scalar K] [Trig K] (s : Settings K) (n : Node K) (m : Mesh K) : Prop :=
  ∃ path, ((Kernel.mesh s).compileNode path n).run = some (.ok m)

namespace Kernel

variable {K : Type} [Scalar K] [Trig K] {s : Settings K} {m : Mesh K}

theorem run_performAt_eq_ok {path : Path} {operation : Operation K (Mesh K)}
    (h : ((mesh s).performAt path operation).run = some (.ok m)) :
    ((mesh s).perform operation).run = some (.ok m) := by
  obtain ⟨answer, hanswer, h⟩ := Option.map_eq_some_iff.mp h
  cases answer with
  | error e => cases h
  | ok g =>
    cases h
    exact hanswer

/-- A relation between nodes and meshes that holds of a node and what is made of it, if it holds of
the nodes below and what is made of them. -/
structure IsKept (s : Settings K) (r : Node K → Mesh K → Prop) : Prop where
  /-- It holds of shapes. -/
  shape : ∀ shape m, Mesh.ofShape shape = .ok m → r (.shape shape) m
  /-- Combinations keep it. -/
  combine : ∀ combination children operands m,
    List.Forall₂ (fun n g => n.Makes s g ∧ r n g) children operands →
    (combineMeshes s combination operands).run = some (.ok m) → r (.combine combination children) m
  /-- Motions keep it. -/
  move : ∀ motion child g m, r child g → g.move motion.inRadians = .ok m →
    r (.move motion child) m

variable {r : Node K → Mesh K → Prop}

mutual

/-- What every step keeps holds of a node and the mesh that it is made into. -/
theorem IsKept.of_compileNode (hr : IsKept s r) (path : Path) : (n : Node K) → ∀ m : Mesh K,
    ((mesh s).compileNode path n).run = some (.ok m) → r n m
  | .shape shape, m, h => hr.shape shape m (Option.some.inj (run_performAt_eq_ok h))
  | .combine combination children, m, h => by
    rw [compileNode, run_bind_eq_ok_iff] at h
    obtain ⟨operands, hoperands, h⟩ := h
    exact hr.combine combination children operands m
      (hr.of_compileItems _ 0 children operands hoperands) (run_performAt_eq_ok h)
  | .move motion child, m, h => by
    rw [compileNode, run_bind_eq_ok_iff] at h
    obtain ⟨g, hg, h⟩ := h
    exact hr.move motion child g m (hr.of_compileNode _ child g hg)
      (Option.some.inj (run_performAt_eq_ok h))

theorem IsKept.of_compileItems (hr : IsKept s r) (path : Path) (i : ℕ) : (ns : List (Node K)) →
    ∀ gs : List (Mesh K), ((mesh s).compileItems path i ns).run = some (.ok gs) →
    List.Forall₂ (fun n g => n.Makes s g ∧ r n g) ns gs
  | [], gs, h => by
    cases h
    exact .nil
  | n :: rest, gs, h => by
    rw [compileItems, run_bind_eq_ok_iff] at h
    obtain ⟨g, hg, h⟩ := h
    obtain ⟨others, hothers, h⟩ := run_bind_eq_ok_iff.mp h
    cases h
    exact .cons ⟨⟨_, hg⟩, hr.of_compileNode _ n g hg⟩
      (hr.of_compileItems path (i + 1) rest others hothers)

end

end Kernel

/-- In the tree of nodes there is a shape for which a corner is computed that is not at a finite
position, or a combination that loses a cut while its operands are finite. -/
inductive Node.Overflows {K : Type} [Scalar K] [Trig K] (s : Settings K) : Node K → Prop where
  /-- A shape has such a corner. -/
  | shape {shape : Shape K} {m : Mesh K} {p : Vec3 K} : Mesh.ofShape shape = .ok m →
      p ∈ m.positions → shape.HasCorner p → ¬ p.isFinite = true → Overflows s (.shape shape)
  /-- A combination loses a cut. -/
  | combine {combination : Combination} {children : List (Node K)} {operands : List (Mesh K)}
      {m : Mesh K} : children.Forall₂ (Makes s) operands →
      (Kernel.combineMeshes s combination operands).run = some (.ok m) →
      (∀ b ∈ operands, b.IsFinite) → ¬ m.IsFinite → Mesh.LosesCut (operands.flatMap Mesh.polygons) →
      Overflows s (.combine combination children)
  /-- A node is combined in which this happens. -/
  | child {combination : Combination} {children : List (Node K)} {n : Node K} : n ∈ children →
      Overflows s n → Overflows s (.combine combination children)

theorem exists_of_forall₂ {α β : Type} {r : α → β → Prop} {as : List α} {bs : List β} {b : β}
    (h : List.Forall₂ r as bs) (hb : b ∈ bs) : ∃ a ∈ as, r a b := by
  induction h with
  | nil => cases hb
  | @cons a b' as bs hab _ ih =>
    rcases List.mem_cons.mp hb with rfl | hb
    · exact ⟨a, .head as, hab⟩
    · obtain ⟨a', ha', hr⟩ := ih hb
      exact ⟨a', .tail a ha', hr⟩

namespace Kernel

variable {K : Type} [Scalar K] [Trig K]

/-- What a node is made into carries no box that is not its own. -/
theorem isKept_isFresh (s : Settings K) : IsKept s fun _ m => m.IsFresh where
  shape _ _ h := Mesh.isFresh_ofShape h
  combine combination children operands m hoperands h := by
    refine Mesh.isFresh_combineMeshes ?_ h
    intro b hb
    obtain ⟨n, -, -, hfresh⟩ := exists_of_forall₂ hoperands hb
    exact hfresh
  move _ _ _ _ _ h := Mesh.isFresh_transform h

/-- **A position that is not finite was made by a shape or by a cut**, and has not been moved
since. -/
theorem isKept_overflows (s : Settings K) : IsKept s fun n m => ¬ m.IsFinite → n.Overflows s where
  shape _ m h hm := by
    rw [Mesh.IsFinite] at hm
    push Not at hm
    obtain ⟨p, hp, hlost⟩ := hm
    exact .shape h hp (Mesh.hasCorner_of_ofShape h hp) hlost
  combine combination children operands m hoperands h hm := by
    by_cases hfinite : ∀ b ∈ operands, b.IsFinite
    · exact .combine (hoperands.imp fun _ _ hn => hn.1) h hfinite hm
        (Mesh.losesCut_of_combineMeshes h hfinite hm)
    · push Not at hfinite
      obtain ⟨b, hb, hlost⟩ := hfinite
      obtain ⟨n, hn, -, hoverflows⟩ := exists_of_forall₂ hoperands hb
      exact .child hn (hoverflows hlost)
  move _ _ _ _ _ h hm := absurd (Mesh.isFinite_of_transform h) hm

end Kernel

/-! ### What is shown of a solid -/

/-- What is reported and written of a solid are finite numbers. -/
structure Compiled.ShowsFinite (c : Compiled Double (Mesh Double)) : Prop where
  /-- The bounding box is reported as two arrays of numbers, -/
  box : ∃ lower upper : List Number, c.boundingBox.toJson =
    .array [.array (lower.map .number), .array (upper.map .number)]
  /-- an OBJ file lists finite positions, -/
  obj : ∀ p ∈ (Obj.faces c.geometry).1, ∀ x ∈ p.toList, x.isFinite = true
  /-- and the corners in an STL file are finite. In single precision they are so unless they are too
  large for it. -/
  stl : ∀ t ∈ c.geometry.triangles, ∀ v ∈ t.toList, ∀ x ∈ v.pos.toList, x.isFinite = true ∧
    ((Stl.single x).isFinite = true ↔ |x.reading.toRat| < 2 ^ 128 - 2 ^ 103)

namespace Single

theorem Rounds.isFinite_iff {x y : Reading} (h : Rounds x y) (hx : x.isFinite = true) :
    y.isFinite = true ↔ |x.toRat| < 2 ^ 128 - 2 ^ 103 := by
  have habs : ∀ (negative : Bool) (m : Magnitude),
      |(Reading.finite negative m).toRat| = m.toRat := by
    intro negative m
    cases negative <;> simp [Reading.toRat, abs_of_nonneg m.toRat_nonneg]
  cases h with
  | nan negative => cases hx
  | infinite negative => cases hx
  | finite negative h =>
    rw [habs]
    exact iff_of_true rfl h.lt
  | overflow negative h =>
    rw [habs]
    exact iff_of_false Bool.false_ne_true h.not_gt

end Single

theorem Double.isFinite_reading {x : Double} (h : x.isFinite = true) :
    x.reading.isFinite = true := by
  cases x with
  | nan negative => cases h
  | number a ha => exact (Reading.isFinite_ofFloat a).trans h

theorem Vec3.exists_toJson_eq {v : Vec3 Double} (h : ∀ x ∈ v.toList, x.isFinite = true) :
    ∃ numbers : List Number, v.toJson = .array (numbers.map .number) := by
  simp only [toList, List.forall_mem_cons] at h
  obtain ⟨x, hx, -⟩ := Double.exists_toJson_eq h.1
  obtain ⟨y, hy, -⟩ := Double.exists_toJson_eq h.2.1
  obtain ⟨z, hz, -⟩ := Double.exists_toJson_eq h.2.2.1
  exact ⟨[x, y, z], by simp [toJson, toList, hx, hy, hz]⟩

theorem Mesh.mem_positions_of_mem_triangles {m : Mesh Double} {t : Triangle Double}
    (ht : t ∈ m.triangles) {v : Vertex Double} (hv : v ∈ t.toList) : v.pos ∈ m.positions := by
  obtain ⟨q, hq, ht⟩ := List.mem_flatMap.mp ht
  refine List.mem_flatMap.mpr ⟨q, hq, List.mem_map_of_mem ?_⟩
  obtain ⟨vertices, plane⟩ := q
  cases vertices with
  | nil => cases ht
  | cons first rest =>
    obtain ⟨e, he, rfl⟩ := List.mem_map.mp ht
    obtain ⟨hb, hc⟩ := List.of_mem_zip he
    simp only [Triangle.toList, List.mem_cons, List.not_mem_nil, or_false] at hv
    rcases hv with rfl | rfl | rfl
    · exact .head rest
    · exact .tail first hb
    · exact .tail first (List.mem_of_mem_tail hc)

/-- Finite corners are shown as such. -/
theorem Compiled.showsFinite {c : Compiled Double (Mesh Double)} (h : c.geometry.IsFinite)
    (hbox : c.boundingBox = .ofPoints c.geometry.positions) : c.ShowsFinite := by
  have hfinite : ∀ p ∈ c.geometry.positions, ∀ x ∈ p.toList, x.isFinite = true :=
    fun p hp => Vec3.isFinite_iff.mp (h p hp)
  refine ⟨?box, ?obj, ?stl⟩
  case box =>
    obtain ⟨hlower, hupper⟩ := List.forall_mem_append.mp (BoundingBox.isFinite_ofPoints hfinite)
    obtain ⟨lower, hlower⟩ := Vec3.exists_toJson_eq hlower
    obtain ⟨upper, hupper⟩ := Vec3.exists_toJson_eq hupper
    exact ⟨lower, upper, by rw [hbox, BoundingBox.toJson, hlower, hupper]⟩
  case obj =>
    intro p hp
    obtain ⟨-, hmem, -⟩ := Obj.faces_spec c.geometry
    exact hfinite p (Obj.mem_positions_of_mem_outlines (hmem p hp))
  case stl =>
    intro t ht v hv x hx
    have hx : x.isFinite = true := hfinite v.pos (Mesh.mem_positions_of_mem_triangles ht hv) x hx
    exact ⟨hx, (Single.rounds_bits x).isFinite_iff (Double.isFinite_reading hx)⟩

/-! ### Recipes -/

namespace Recipe

variable {settings : Settings Double} {options : CompileOptions} {v : Json} {r : Recipe Double}
  {c : Compiled Double (Mesh Double)}

/-- A recipe that has been made: its root was, the result was converted if its lengths needed it,
and then measured. -/
theorem run_compile_eq_ok (h : (r.compile (Kernel.mesh settings) options).run = some (.ok c)) :
    ∃ made, ((Kernel.mesh settings).compileNode .root r.root).run = some (.ok made) ∧
      (convert (Kernel.mesh settings) options r made).run = some (.ok c.geometry) ∧
      c.boundingBox = c.geometry.boundingBox := by
  rcases run_compile_eq_some h with ⟨limit, -, he⟩ | ⟨out, hout, he⟩
  · cases he
  · cases out with
    | error e => cases he
    | ok result =>
      rw [construct_eq, run_bind_eq_ok_iff] at hout
      obtain ⟨made, hmade, hout⟩ := hout
      obtain ⟨geometry, hgeometry, hout⟩ := run_bind_eq_ok_iff.mp hout
      obtain ⟨box, hbox, hout⟩ := run_bind_eq_ok_iff.mp hout
      cases hout
      cases hbox
      cases he
      exact ⟨made, hmade, hgeometry, rfl⟩

/-- The conversion moves what was made, or leaves it as it is. -/
theorem run_convert_eq_ok {made m : Mesh Double}
    (h : (convert (Kernel.mesh settings) options r made).run = some (.ok m)) :
    (∃ motion, r.unitScale? options = some motion ∧ made.move motion = .ok m) ∨
      r.unitScale? options = none ∧ m = made := by
  unfold convert at h
  cases hscale : r.unitScale? options with
  | some motion =>
    rw [hscale] at h
    exact .inl ⟨motion, rfl, Option.some.inj (Kernel.run_performAt_eq_ok h)⟩
  | none =>
    rw [hscale] at h
    cases h
    exact .inr ⟨rfl, rfl⟩

/-- **What success says about a solid.** The bounding box that is reported is that of the corners.
If all corners are at finite positions then what is reported and written are finite numbers. If not
then the lengths were not converted, and the recipe has a shape with other positions, or a
combination that loses a cut. No motion does. -/
theorem showsFinite_or_overflows
    (h : (compileJson (Kernel.mesh settings) options v).run = some (.ok c)) :
    ∃ r, ofJson v = .ok r ∧ c.boundingBox = .ofPoints c.geometry.positions ∧
      (c.geometry.IsFinite → c.ShowsFinite) ∧
      (¬ c.geometry.IsFinite → r.unitScale? options = none ∧ r.root.Overflows settings) := by
  unfold compileJson at h
  split at h
  · cases h
  · next r hread =>
    obtain ⟨made, hmade, hconvert, hbox⟩ := run_compile_eq_ok h
    have hfresh : made.IsFresh := (Kernel.isKept_isFresh settings).of_compileNode .root _ _ hmade
    have hoverflows := (Kernel.isKept_overflows settings).of_compileNode .root _ _ hmade
    obtain ⟨hfresh, hlost⟩ : c.geometry.IsFresh ∧ (¬ c.geometry.IsFinite →
        r.unitScale? options = none ∧ r.root.Overflows settings) := by
      rcases run_convert_eq_ok hconvert with ⟨motion, -, hmoved⟩ | ⟨hscale, hsame⟩
      · exact ⟨Mesh.isFresh_transform hmoved,
          fun hlost => absurd (Mesh.isFinite_of_transform hmoved) hlost⟩
      · rw [hsame]
        exact ⟨hfresh, fun hlost => ⟨hscale, hoverflows hlost⟩⟩
    rw [hfresh.boundingBox_eq] at hbox
    exact ⟨r, hread, hbox, fun hfinite => Compiled.showsFinite hfinite hbox, hlost⟩

/-- A number above half the range of numbers. -/
def far : Number := .real 1.7e308 (by decide +kernel)

/-- A box that is that long, and that far away. -/
def farDocument : Json :=
  .object [("version", .ofNat 1), ("root", .object [("type", .string "cuboid"),
    ("size", .array [.number far, .ofNat 1, .ofNat 1]),
    ("center", .array [.number far, .ofNat 0, .ofNat 0])])]

/-- The lengths of its edges. -/
def farSize : Vec3 Double :=
  ⟨far.toDouble, (Number.natural 1).toDouble, (Number.natural 1).toDouble⟩

/-- Its center. -/
def farCenter : Vec3 Double :=
  ⟨far.toDouble, (Number.natural 0).toDouble, (Number.natural 0).toDouble⟩

/-- Its mesh. -/
def farMesh : Mesh Double :=
  .ofPolygons (Mesh.cuboidFaces (farCenter - farSize.scale Scalar.half) farSize)

/-- The box is made. -/
theorem run_compileJson_farDocument :
    (compileJson (Kernel.mesh .default) {} farDocument).run =
      some (.ok ⟨farMesh, 1, farMesh.boundingBox⟩) := by
  set r : Recipe Double := Recipe.mk 1 .mm none (.shape (.cuboid farSize (some farCenter))) with hr
  have hrecipe : farDocument.IsRecipe r := by
    refine ⟨⟨_, rfl, by decide⟩, rfl, ⟨none, rfl, rfl⟩, rfl, ⟨_, rfl, ?_⟩, by decide⟩
    exact .shape (.cuboid rfl ⟨_, rfl, .numbers _ _ _⟩ (.intro _ ⟨rfl, .numbers _ _ _⟩))
  have hread : ofJson farDocument = .ok r := ofJson_of_isRecipe hrecipe
  have hshape : Mesh.ofShape (.cuboid farSize (some farCenter)) = .ok farMesh := by
    have hlengths : (farSize.any fun a => decide (a < 0)) = false ∧
        farSize.any Scalar.isZero = false := by decide +kernel
    rw [Mesh.ofShape, Mesh.cuboid, Mesh.requireFinite_eq_ok .size (by simp [Vec3.toList, farSize]),
      Mesh.resolveCenter_eq_ok (by simp [Vec3.toList, farCenter])]
    simp [hlengths, bind, Except.bind, pure, Except.pure, farMesh]
  have hlimits : r.checkLimits {} = .ok 1 := by
    simp only [checkLimits, checkSegments, Node.count_eq_size, Node.depth_eq_levels]
    rfl
  have hscale : r.unitScale? {} = none := rfl
  rw [compileJson, hread]
  show (r.compile (Kernel.mesh .default) {}).run = _
  rw [run_compile_of_ok _ hlimits, construct, hscale]
  simp [hr, Kernel.compileNode, Kernel.performAt, Kernel.placed, Kernel.mesh, hshape, outcome]

/-- A corner of the box is not at a finite position. -/
theorem not_isFinite_farMesh : ¬ farMesh.IsFinite := by
  intro h
  have hlost : ∃ p ∈ farMesh.positions, p.isFinite = false := by decide +kernel
  obtain ⟨p, hp, hlost⟩ := hlost
  exact absurd (h p hp) (by simp [hlost])

/-- The box is reported as it is, and the recipe overflows. -/
theorem showsFinite_or_overflows_far : ∃ (c : Compiled Double (Mesh Double)) (r : Recipe Double),
    (compileJson (Kernel.mesh .default) {} farDocument).run = some (.ok c) ∧
    ofJson farDocument = .ok r ∧ c.boundingBox = .ofPoints c.geometry.positions ∧
    ¬ c.geometry.IsFinite ∧ r.unitScale? {} = none ∧ r.root.Overflows .default := by
  obtain ⟨r, hread, hbox, -, hoverflows⟩ := showsFinite_or_overflows run_compileJson_farDocument
  obtain ⟨hscale, hoverflows⟩ := hoverflows not_isFinite_farMesh
  exact ⟨_, r, run_compileJson_farDocument, hread, hbox, not_isFinite_farMesh, hscale, hoverflows⟩

/-- **Success does not say that all is finite**: the box is made, a corner of it is not at a finite
position, and a `null` is reported for its bounding box. -/
theorem exists_compiled_not_finite : ∃ (v : Json) (c : Compiled Double (Mesh Double)),
    (compileJson (Kernel.mesh .default) {} v).run = some (.ok c) ∧
    (∃ p ∈ c.geometry.positions, ∃ x ∈ p.toList, x.isFinite = false) ∧
    ∃ x ∈ c.boundingBox.upper.toList, x.toJson = .null := by
  have hlost : ∃ p ∈ farMesh.positions, ∃ x ∈ p.toList, x.isFinite = false := by decide +kernel
  have hbox : farMesh.boundingBox.upper.x.isFinite = false := by decide +kernel
  exact ⟨farDocument, _, run_compileJson_farDocument, hlost, _, .head _,
    Double.toJson_of_not_isFinite (by simp [hbox])⟩

end Recipe

end Solids
