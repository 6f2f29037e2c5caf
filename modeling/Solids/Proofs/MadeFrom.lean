import Solids.Kernel
import Solids.Proofs.Build
/-!
# Solids.Proofs.MadeFrom

**What combined meshes are made of.** Whatever numbers are computed with, a combination of meshes
makes no planes: those of its faces are planes of operands, perhaps turned over. And it makes
positions in one way only, by cutting an edge with such a plane.

Main definitions:

* `IsPlaneOf` and `IsCornerOf` — the planes and the positions that there can be;
* `Polygon.IsMadeFrom` — a polygon with these.

Main statements:

* `Kernel.isMadeFrom_combineMeshes` — the faces of a combination are made from those of its
  operands;
* `IsCornerOf.exists_crossing` — if all corners of some faces have a property, and a position made
  from them does not, then there is a first cut that lost it.
-/

namespace Solids

variable {K : Type} [Scalar K] {faces : List (Polygon K)} {p : Plane K} {x : Vec3 K}

/-- A plane of a face, turned over any number of times. -/
inductive IsPlaneOf (faces : List (Polygon K)) : Plane K → Prop where
  /-- The plane of a face. -/
  | face {q : Polygon K} : q ∈ faces → IsPlaneOf faces q.plane
  /-- A plane turned over. -/
  | flip {p : Plane K} : IsPlaneOf faces p → IsPlaneOf faces p.flip

/-- A corner of a face, or where a plane of a face cuts an edge between such positions. -/
inductive IsCornerOf (faces : List (Polygon K)) : Vec3 K → Prop where
  /-- A corner of a face. -/
  | face {q : Polygon K} {v : Vertex K} : q ∈ faces → v ∈ q.vertices → IsCornerOf faces v.pos
  /-- A cut. -/
  | crossing {p : Plane K} {a b : SidedVertex K} {v : Vertex K} : IsPlaneOf faces p →
      IsCornerOf faces a.vertex.pos → IsCornerOf faces b.vertex.pos → p.crossing? a b = some v →
      IsCornerOf faces v.pos

/-- **There is a first cut that loses a property** that the corners of all faces have, if a position
made from them does not have it. -/
theorem IsCornerOf.exists_crossing {P : Vec3 K → Prop} (h : IsCornerOf faces x) (hx : ¬ P x)
    (hfaces : ∀ q ∈ faces, ∀ v ∈ q.vertices, P v.pos) :
    ∃ (p : Plane K) (a b : SidedVertex K) (v : Vertex K), IsPlaneOf faces p ∧
      (IsCornerOf faces a.vertex.pos ∧ P a.vertex.pos) ∧
      (IsCornerOf faces b.vertex.pos ∧ P b.vertex.pos) ∧
      p.crossing? a b = some v ∧ ¬ P v.pos := by
  induction h with
  | face hq hv => exact absurd (hfaces _ hq _ hv) hx
  | @crossing p a b v hp ha hb hv iha ihb =>
    by_cases hPa : P a.vertex.pos
    · by_cases hPb : P b.vertex.pos
      · exact ⟨p, a, b, v, hp, ⟨ha, hPa⟩, ⟨hb, hPb⟩, hv, hx⟩
      · exact ihb hPb
    · exact iha hPa

/-! ### Polygons -/

/-- The plane and the corners of a polygon come from some faces. -/
structure Polygon.IsMadeFrom (faces : List (Polygon K)) (q : Polygon K) : Prop where
  /-- The plane is one of theirs. -/
  plane : IsPlaneOf faces q.plane
  /-- The positions are made from theirs. -/
  corners : ∀ v ∈ q.vertices, IsCornerOf faces v.pos

namespace Polygon.IsMadeFrom

variable {q r : Polygon K} {eps : K}

theorem of_mem (h : q ∈ faces) : q.IsMadeFrom faces := ⟨.face h, fun _ hv => .face h hv⟩

theorem flip (h : q.IsMadeFrom faces) : q.flip.IsMadeFrom faces := by
  refine ⟨.flip h.plane, fun v hv => ?_⟩
  obtain ⟨w, hw, rfl⟩ := List.mem_map.mp hv
  exact h.corners w (List.mem_reverse.mp hw)

/-- The pieces of a polygon are made from what it is made from, and from the plane. -/
theorem split (h : q.IsMadeFrom faces) (hp : IsPlaneOf faces p) :
    ∀ r ∈ (p.split eps q).onFront ++ (p.split eps q).onBack ++ (p.split eps q).front
      ++ (p.split eps q).back, r.IsMadeFrom faces := by
  have hpart : ∀ away, ∀ v ∈ p.partWithout away
      (Plane.edges (q.vertices.map fun v => ⟨v, p.sideOf eps v.pos⟩)), IsCornerOf faces v.pos := by
    intro away v hv
    obtain ⟨e, he, hv⟩ := List.mem_flatMap.mp hv
    obtain ⟨hfst, hsnd⟩ := Outline.mem_of_mem_edges he
    obtain ⟨a, ha, hfst⟩ := List.mem_map.mp hfst
    obtain ⟨b, hb, hsnd⟩ := List.mem_map.mp hsnd
    have hfirst : IsCornerOf faces e.1.vertex.pos := hfst ▸ h.corners a ha
    have hsecond : IsCornerOf faces e.2.vertex.pos := hsnd ▸ h.corners b hb
    have hcrossing : v ∈ (p.crossing? e.1 e.2).toList → IsCornerOf faces v.pos := fun hv =>
      .crossing hp hfirst hsecond (Option.mem_toList.mp hv)
    dsimp only at hv
    split at hv
    · exact hcrossing hv
    · rcases List.mem_cons.mp hv with rfl | hv
      · exact hfirst
      · exact hcrossing hv
  have hpiece : ∀ away, ∀ r ∈ Plane.piece? q (p.partWithout away
      (Plane.edges (q.vertices.map fun v => ⟨v, p.sideOf eps v.pos⟩))), r.IsMadeFrom faces := by
    intro away r hr
    unfold Plane.piece? at hr
    split at hr
    · rw [List.mem_singleton.mp hr]
      exact ⟨h.plane, hpart away⟩
    · cases hr
  unfold Plane.split
  split
  · split <;> simpa using h
  · simpa using h
  · simpa using h
  · simpa [or_imp, forall_and] using ⟨hpiece .back, hpiece .front⟩

end Polygon.IsMadeFrom

/-! ### Trees -/

/-- The planes and the polygons of a tree come from some faces. -/
def Tree.IsMadeFrom (faces : List (Polygon K)) : Tree K → Prop
  | .absent => True
  | .node plane own front back => (∀ p, plane = some p → IsPlaneOf faces p) ∧
      (∀ q ∈ own, q.IsMadeFrom faces) ∧ front.IsMadeFrom faces ∧ back.IsMadeFrom faces

namespace Plane

variable {polygons : List (Polygon K)}

/-- Sorting polygons by a plane makes nothing else of them. -/
theorem isMadeFrom_of_mem_splitAll (eps : K) (hp : IsPlaneOf faces p)
    (h : ∀ q ∈ polygons, q.IsMadeFrom faces) :
    ((∀ r ∈ Pieces.onPlane (p.splitAll eps polygons), r.IsMadeFrom faces) ∧
      (∀ r ∈ (p.splitAll eps polygons).flatMap Pieces.front, r.IsMadeFrom faces) ∧
      ∀ r ∈ (p.splitAll eps polygons).flatMap Pieces.back, r.IsMadeFrom faces) ∧
    (∀ r ∈ Pieces.inFront (p.splitAll eps polygons), r.IsMadeFrom faces) ∧
      ∀ r ∈ Pieces.behind (p.splitAll eps polygons), r.IsMadeFrom faces := by
  have hsplit : ∀ q ∈ polygons, ∀ r, (r ∈ (p.split eps q).onFront ∨ r ∈ (p.split eps q).onBack ∨
      r ∈ (p.split eps q).front ∨ r ∈ (p.split eps q).back) → r.IsMadeFrom faces :=
    fun q hq r hr => (h q hq).split hp r (by simpa [or_assoc] using hr)
  simp only [mem_onPlane, mem_front, mem_back, mem_inFront, mem_behind, List.mem_append]
  refine ⟨⟨?_, ?_, ?_⟩, ?_, ?_⟩ <;> rintro r ⟨q, hq, hr⟩ <;> exact hsplit q hq r (by tauto)

end Plane

namespace Tree.IsMadeFrom

variable {t t' : Tree K} {polygons : List (Polygon K)} {eps : K} {levels : ℕ}

theorem frontChild (h : t.IsMadeFrom faces) : t.frontChild.IsMadeFrom faces := by
  cases t with
  | absent => trivial
  | node plane own front back => exact h.2.2.1

theorem backChild (h : t.IsMadeFrom faces) : t.backChild.IsMadeFrom faces := by
  cases t with
  | absent => trivial
  | node plane own front back => exact h.2.2.2

theorem own (h : t.IsMadeFrom faces) : ∀ q ∈ t.own, q.IsMadeFrom faces := by
  cases t with
  | absent => simp [Tree.own]
  | node plane own front back => exact h.2.1

/-- The plane that polygons are divided by, that of the node or else one of theirs. -/
theorem isPlaneOf_divider (h : t.IsMadeFrom faces) (eps : K) {first : Polygon K}
    {rest : List (Polygon K)} (hpolygons : ∀ q ∈ first :: rest, q.IsMadeFrom faces) :
    IsPlaneOf faces (t.plane?.getD (splitter eps first rest)) := by
  cases hplane : t.plane? with
  | none =>
    obtain ⟨q, hq, hsplitter⟩ := exists_splitter_eq eps first rest
    exact hsplitter ▸ (hpolygons q hq).plane
  | some p =>
    cases t with
    | absent => cases hplane
    | node plane own front back => exact h.1 p hplane

/-- Insertion makes nothing else of a tree and of polygons. -/
theorem insert (h : t.insert eps levels polygons = some t') (ht : t.IsMadeFrom faces)
    (hpolygons : ∀ q ∈ polygons, q.IsMadeFrom faces) : t'.IsMadeFrom faces := by
  induction levels generalizing t t' polygons with
  | zero =>
    cases polygons with
    | nil =>
      rw [Tree.insert] at h
      exact Option.some.inj h ▸ ht
    | cons first rest => cases h
  | succ levels ih =>
    cases polygons with
    | nil =>
      rw [Tree.insert] at h
      exact Option.some.inj h ▸ ht
    | cons first rest =>
      have hplane := ht.isPlaneOf_divider eps hpolygons
      obtain ⟨⟨honPlane, hfront, hback⟩, -⟩ :=
        Plane.isMadeFrom_of_mem_splitAll eps hplane hpolygons
      rw [Tree.insert] at h
      obtain ⟨front, hinsertFront, h⟩ := Option.bind_eq_some_iff.mp h
      obtain ⟨back, hinsertBack, h⟩ := Option.bind_eq_some_iff.mp h
      cases h
      refine ⟨fun p hp => Option.some.inj hp ▸ hplane, fun q hq => ?_,
        ih hinsertFront ht.frontChild hfront, ih hinsertBack ht.backChild hback⟩
      exact (List.mem_append.mp hq).elim (ht.own q) (honPlane q)

theorem ofPolygons (h : Tree.ofPolygons eps levels polygons = some t)
    (hpolygons : ∀ q ∈ polygons, q.IsMadeFrom faces) : t.IsMadeFrom faces :=
  insert (t := empty) h ⟨nofun, nofun, trivial, trivial⟩ hpolygons

/-- Clipping makes nothing else of polygons and the planes of the tree. -/
theorem clip (h : t.IsMadeFrom faces) (hpolygons : ∀ q ∈ polygons, q.IsMadeFrom faces) :
    ∀ q ∈ t.clip eps polygons, q.IsMadeFrom faces := by
  rw [clip_eq_clipped]
  induction t generalizing polygons with
  | absent => simp [clipped]
  | node plane own front back ihFront ihBack =>
    obtain ⟨hplane, -, hfront, hback⟩ := h
    cases plane with
    | none => exact hpolygons
    | some p =>
      obtain ⟨-, hinFront, hbehind⟩ :=
        Plane.isMadeFrom_of_mem_splitAll eps (hplane p rfl) hpolygons
      intro q hq
      rcases List.mem_append.mp hq with hq | hq
      · rcases List.mem_append.mp hq with hq | hq
        · split at hq
          · exact hinFront q hq
          · cases hq
        · exact ihBack hback hbehind q hq
      · exact ihFront hfront hinFront q hq

theorem clipTo {solid : Tree K} (h : t.IsMadeFrom faces) (eps : K)
    (hsolid : solid.IsMadeFrom faces) : (t.clipTo eps solid).IsMadeFrom faces := by
  induction t with
  | absent => trivial
  | node plane own front back ihFront ihBack =>
    obtain ⟨hplane, hown, hfront, hback⟩ := h
    exact ⟨hplane, hsolid.clip hown, ihFront hfront, ihBack hback⟩

theorem invert (h : t.IsMadeFrom faces) : t.invert.IsMadeFrom faces := by
  induction t with
  | absent => trivial
  | node plane own front back ihFront ihBack =>
    obtain ⟨hplane, hown, hfront, hback⟩ := h
    refine ⟨fun p hp => ?_, fun q hq => ?_, ihBack hback, ihFront hfront⟩
    · obtain ⟨p, rfl, rfl⟩ := Option.map_eq_some_iff.mp hp
      exact .flip (hplane p rfl)
    · obtain ⟨r, hr, rfl⟩ := List.mem_map.mp hq
      exact (hown r hr).flip

theorem of_mem_polygons (h : t.IsMadeFrom faces) : ∀ q ∈ t.polygons, q.IsMadeFrom faces := by
  induction t with
  | absent => simp
  | node plane own front back ihFront ihBack =>
    obtain ⟨-, hown, hfront, hback⟩ := h
    simp only [polygons_node, List.mem_append]
    rintro q ((hq | hq) | hq)
    · exact hown q hq
    · exact ihBack hback q hq
    · exact ihFront hfront q hq

end Tree.IsMadeFrom

/-! ### Meshes -/

namespace Mesh

variable {s : Settings K} {a b m : Mesh K}

/-- All faces of a mesh are made from some others. -/
def IsMadeFrom (faces : List (Polygon K)) (m : Mesh K) : Prop :=
  ∀ q ∈ m.polygons, q.IsMadeFrom faces

namespace IsMadeFrom

/-- What is kept of a tree that is made of the trees of both meshes. -/
theorem of_trees {joined : Tree K → Tree K → Option (Tree K)} {kept : Tree K → List (Polygon K)}
    (h : ((a.tree? s).bind fun ta => (b.tree? s).bind fun tb =>
      (joined ta tb).bind fun t => some (ofPolygons (kept t))) = some m)
    (ha : a.IsMadeFrom faces) (hb : b.IsMadeFrom faces)
    (hkept : ∀ ta tb t, ta.IsMadeFrom faces → tb.IsMadeFrom faces → joined ta tb = some t →
      ∀ q ∈ kept t, q.IsMadeFrom faces) : m.IsMadeFrom faces := by
  obtain ⟨ta, hta, h⟩ := Option.bind_eq_some_iff.mp h
  obtain ⟨tb, htb, h⟩ := Option.bind_eq_some_iff.mp h
  obtain ⟨t, ht, h⟩ := Option.bind_eq_some_iff.mp h
  cases h
  exact hkept ta tb t (.ofPolygons hta ha) (.ofPolygons htb hb) ht

theorem union (h : Mesh.union s a b = some m) (ha : a.IsMadeFrom faces)
    (hb : b.IsMadeFrom faces) : m.IsMadeFrom faces := by
  unfold Mesh.union at h
  split at h
  · exact Option.some.inj h ▸ hb
  · split at h
    · cases h
      exact fun q hq => (List.mem_append.mp hq).elim (ha q) (hb q)
    · refine of_trees h ha hb fun ta tb t hta htb ht => ?_
      have hta := hta.clipTo s.tolerance htb
      have htb := htb.clipTo s.tolerance hta
      have htb := (htb.invert.clipTo s.tolerance hta).invert
      exact (Tree.IsMadeFrom.insert ht hta htb.of_mem_polygons).of_mem_polygons

theorem difference (h : Mesh.difference s a b = some m) (ha : a.IsMadeFrom faces)
    (hb : b.IsMadeFrom faces) : m.IsMadeFrom faces := by
  unfold Mesh.difference at h
  split at h
  · cases h
    unfold compared
    split <;> exact ha
  · refine of_trees h ha hb fun ta tb t hta htb ht => ?_
    have hta := hta.invert.clipTo s.tolerance htb
    have htb := htb.clipTo s.tolerance hta
    have htb := (htb.invert.clipTo s.tolerance hta).invert
    exact (Tree.IsMadeFrom.insert ht hta htb.of_mem_polygons).invert.of_mem_polygons

theorem intersection (h : Mesh.intersection s a b = some m) (ha : a.IsMadeFrom faces)
    (hb : b.IsMadeFrom faces) : m.IsMadeFrom faces := by
  unfold Mesh.intersection at h
  split at h
  · cases h
    exact nofun
  · refine of_trees h ha hb fun ta tb t hta htb ht => ?_
    have htb := (htb.clipTo s.tolerance hta.invert).invert
    have hta := hta.invert.clipTo s.tolerance htb
    have htb := htb.clipTo s.tolerance hta
    exact (Tree.IsMadeFrom.insert ht hta htb.of_mem_polygons).invert.of_mem_polygons

theorem combineWith {combination : Combination} (h : combineWith s combination a b = some m)
    (ha : a.IsMadeFrom faces) (hb : b.IsMadeFrom faces) : m.IsMadeFrom faces := by
  cases combination with
  | union => exact .union h ha hb
  | subtract => exact .difference h ha hb
  | intersect => exact .intersection h ha hb

theorem combineAll {combination : Combination} {operands : List (Mesh K)}
    (h : combineAll s combination a operands = some m) (ha : a.IsMadeFrom faces)
    (hoperands : ∀ b ∈ operands, b.IsMadeFrom faces) : m.IsMadeFrom faces := by
  induction operands generalizing a with
  | nil => exact Option.some.inj h ▸ ha
  | cons b rest ih =>
    obtain ⟨next, hnext, h⟩ := Option.bind_eq_some_iff.mp h
    rw [List.forall_mem_cons] at hoperands
    exact ih h (.combineWith hnext ha hoperands.1) hoperands.2

end IsMadeFrom

end Mesh

/-- **A combination is made from the faces of its operands.** -/
theorem Kernel.isMadeFrom_combineMeshes {s : Settings K} {combination : Combination}
    {operands : List (Mesh K)} {m : Mesh K}
    (h : (combineMeshes s combination operands).run = some (.ok m)) :
    m.IsMadeFrom (operands.flatMap Mesh.polygons) := by
  have hoperands : ∀ b ∈ operands, b.IsMadeFrom (operands.flatMap Mesh.polygons) :=
    fun b hb q hq => .of_mem (List.mem_flatMap.mpr ⟨b, hb, hq⟩)
  cases operands with
  | nil => cases h
  | cons first rest =>
    obtain ⟨m', hm', h⟩ := Option.map_eq_some_iff.mp h
    cases h
    rw [List.forall_mem_cons] at hoperands
    exact .combineAll hm' hoperands.1 hoperands.2

end Solids
