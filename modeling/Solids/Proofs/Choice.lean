import Solids.Proofs.Build
import Solids.Proofs.WholeNumber
/-!
# Solids.Proofs.Choice

**Which plane is chosen.** The plane that a list of polygons is divided by is that of the first of
the cheapest among the first twenty.

Main definitions:

* `Tree.costOf` — what a plane costs, in terms of how many polygons are on which side;
* `Tree.FirstCheapest` — what it means that a plane is the first of the cheapest;
* `Tree.scoredSplitter` — the choice by costs that are doubles.

Main statement: `Tree.splitter_firstCheapest`.
-/

namespace Solids

/-! ### The first of the cheapest -/

namespace Tree

section Cheapest

variable {α : Type} {cost cost' : α → ℕ} {first : α}

theorem cheapest_concat (cost : α → ℕ) (first : α) (rest : List α) (a : α) :
    cheapest cost first (rest ++ [a]) =
      if cost a < cost (cheapest cost first rest) then a else cheapest cost first rest := by
  -- beside the best element the loop keeps its cost
  have hcost : ∀ l : List α,
      (l.foldl (fun best a => let c := cost a; if c < best.2 then (a, c) else best)
        (first, cost first)).2 = cost (cheapest cost first l) := by
    intro l
    induction l using List.reverseRecOn with
    | nil => rfl
    | append_singleton l b ih =>
      simp only [cheapest, List.foldl_append, List.foldl_cons, List.foldl_nil] at ih ⊢
      split
      · rfl
      · exact ih
  rw [← hcost]
  simp only [cheapest, List.foldl_append, List.foldl_cons, List.foldl_nil]
  split <;> rfl

/-- All elements before the chosen one cost more, and none of those after it costs less. -/
theorem exists_eq_append_cheapest (cost : α → ℕ) (first : α) (rest : List α) :
    ∃ before after, first :: rest = before ++ cheapest cost first rest :: after ∧
      (∀ a ∈ before, cost (cheapest cost first rest) < cost a) ∧
      ∀ a ∈ after, cost (cheapest cost first rest) ≤ cost a := by
  induction rest using List.reverseRecOn with
  | nil => exact ⟨[], [], rfl, by simp, by simp⟩
  | append_singleton rest b ih =>
    rw [cheapest_concat]
    split
    · next hlt =>
      refine ⟨first :: rest, [], rfl, fun a ha => ?_, by simp⟩
      exact hlt.trans_le ((cheapest_spec cost first rest).2 a ha)
    · next hle =>
      obtain ⟨before, after, heq, hbefore, hafter⟩ := ih
      refine ⟨before, after ++ [b], ?_, hbefore, ?_⟩
      · rw [← List.cons_append, heq, List.append_assoc, List.cons_append]
      · rw [List.forall_mem_append, List.forall_mem_singleton]
        exact ⟨hafter, not_lt.mp hle⟩

theorem cheapest_congr {rest : List α} (h : ∀ a ∈ first :: rest, cost a = cost' a) :
    cheapest cost first rest = cheapest cost' first rest := by
  induction rest using List.reverseRecOn with
  | nil => rfl
  | append_singleton rest b ih =>
    rw [← List.cons_append, List.forall_mem_append, List.forall_mem_singleton] at h
    have hcheapest := ih h.1
    rw [cheapest_concat, cheapest_concat, hcheapest, h.2,
      h.1 _ (cheapest_spec cost' first rest).1]

end Cheapest

variable {K : Type} [Scalar K]

/-! ### Costs -/

/-- What a plane costs: eight for each polygon that it cuts, and one for each polygon that there are
more of on one side than on the other. -/
def costOf (eps : K) (polygons : List (Polygon K)) (p : Plane K) : ℕ :=
  8 * polygons.countP (p.sideOfPolygon eps · = .across) +
    ((polygons.countP (p.sideOfPolygon eps · = .front) : ℤ) -
      polygons.countP (p.sideOfPolygon eps · = .back)).natAbs

theorem cost_tally (eps : K) (p : Plane K) (polygons : List (Polygon K)) :
    (tally eps p polygons).cost = costOf eps polygons p := by
  rw [tally_eq, Tally.cost, costOf]
  dsimp only
  omega

/-- Polygons on the plane cost nothing. -/
theorem costOf_append {eps : K} {p : Plane K} (polygons : List (Polygon K))
    {extra : List (Polygon K)} (h : ∀ r ∈ extra, p.sideOfPolygon eps r = .on) :
    costOf eps (polygons ++ extra) p = costOf eps polygons p := by
  have hnone : ∀ s, s ≠ .on → extra.countP (p.sideOfPolygon eps · = s) = 0 := by
    intro s hs
    refine List.countP_eq_zero.mpr fun r hr => ?_
    rw [h r hr, decide_eq_true_eq]
    exact hs.symm
  simp only [costOf, List.countP_append, hnone .across nofun, hnone .front nofun,
    hnone .back nofun, Nat.add_zero]

/-- No polygon is on two sides. -/
theorem costOf_le (eps : K) (p : Plane K) (polygons : List (Polygon K)) :
    costOf eps polygons p ≤ 8 * polygons.length := by
  have hsides : polygons.countP (p.sideOfPolygon eps · = .across) +
      polygons.countP (p.sideOfPolygon eps · = .front) +
      polygons.countP (p.sideOfPolygon eps · = .back) ≤ polygons.length := by
    induction polygons with
    | nil => simp
    | cons q polygons ih =>
      simp only [List.countP_cons, List.length_cons]
      cases p.sideOfPolygon eps q <;> simp <;> omega
  rw [costOf]
  omega

/-! ### Costs as doubles -/

/-- The cost as it is computed with doubles. -/
def Tally.score (t : Tally) : Double :=
  Double.ofNat 8 * Double.ofInteger t.across +
    Double.ofNat 1 * Scalar.abs (Double.ofInteger ((t.front : ℤ) - t.back))

/-- The plane to divide a list of polygons by, found with costs that are doubles. The first polygon
is a candidate like all others: what is there before is the largest double. -/
def scoredSplitter (eps : K) (first : Polygon K) (rest : List (Polygon K)) : Plane K :=
  (((first :: rest).take 20).foldl
    (fun best q =>
      let score := (tally eps q.plane (first :: rest)).score
      if score < best.2 then (q.plane, score) else best)
    (first.plane, Double.largest)).1

/-- A cost below `2 ^ 53` is exact. -/
theorem isWhole_score {t : Tally} (h : t.cost < 2 ^ 53) : t.score.IsWhole t.cost := by
  have hcost : t.cost = 8 * t.across + 1 * ((t.front : ℤ) - t.back).natAbs := by
    rw [Tally.cost]
    omega
  have height : (Double.ofNat 8).IsWhole 8 := ⟨by decide, 8.0, rfl, rfl, rfl⟩
  have hone : (Double.ofNat 1).IsWhole 1 := ⟨by decide, 1.0, rfl, rfl, rfl⟩
  rw [hcost] at h ⊢
  exact (height.mul (Double.isWhole_ofInteger (by omega)) (by omega)).add
    (hone.mul (Double.isWhole_abs_ofInteger (by omega)) (by omega)) h

/-- While costs are exact, the loop over doubles chooses the same plane. -/
theorem scoredSplitter_eq {eps : K} {first : Polygon K} {rest : List (Polygon K)}
    (h : ∀ q ∈ (first :: rest).take 20, costOf eps (first :: rest) q.plane < 2 ^ 53) :
    scoredSplitter eps first rest = splitter eps first rest := by
  have hwhole : ∀ q ∈ first :: rest.take 19, (tally eps q.plane (first :: rest)).score.IsWhole
      (tally eps q.plane (first :: rest)).cost := by
    intro q hq
    refine isWhole_score ?_
    rw [cost_tally]
    exact h q hq
  have hfirst := hwhole first (by simp)
  -- the loops keep the same plane, and the same cost in two forms
  have hloops := List.foldl_rel (l := rest.take 19)
    (f := fun (best : Plane K × Double) (q : Polygon K) =>
      let score := (tally eps q.plane (first :: rest)).score
      if score < best.2 then (q.plane, score) else best)
    (g := fun (best : Polygon K × ℕ) (q : Polygon K) =>
      let c := (tally eps q.plane (first :: rest)).cost
      if c < best.2 then (q, c) else best)
    (r := fun best best' => best.1 = best'.1.plane ∧ best.2.IsWhole best'.2)
    (a := (first.plane, _)) (b := (first, _)) ⟨rfl, hfirst⟩ fun q hq best best' hbest => by
      have hq := hwhole q (.tail first hq)
      by_cases hlt : (tally eps q.plane (first :: rest)).cost < best'.2
      · rw [if_pos hlt, if_pos ((hq.lt_iff hbest.2).mpr hlt)]
        exact ⟨rfl, hq⟩
      · rw [if_neg hlt, if_neg fun h => hlt ((hq.lt_iff hbest.2).mp h)]
        exact hbest
  rw [scoredSplitter, List.take_succ_cons, List.foldl_cons]
  dsimp only
  rw [if_pos hfirst.lt_largest]
  exact hloops.1

/-! ### The choice -/

/-- The plane is that of the polygon at `k`, one of the first twenty. None of them has a plane that
costs less, and of those whose planes cost as little this one is the first. -/
structure FirstCheapest (eps : K) (polygons : List (Polygon K)) (k : ℕ) (p : Plane K) : Prop where
  /-- It is a candidate. -/
  lt_limit : k < min 20 polygons.length
  /-- It is the plane of this candidate. -/
  eq_plane : polygons[k]?.map (·.plane) = some p
  /-- No candidate has a plane that costs less. -/
  least : ∀ j q, j < min 20 polygons.length → polygons[j]? = some q →
    costOf eps polygons p ≤ costOf eps polygons q.plane
  /-- All candidates before have planes that cost more. -/
  leftmost : ∀ j q, j < k → polygons[j]? = some q →
    costOf eps polygons p < costOf eps polygons q.plane

theorem splitter_eq_cheapest (eps : K) (first : Polygon K) (rest : List (Polygon K)) :
    splitter eps first rest =
      (cheapest (fun q => costOf eps (first :: rest) q.plane) first (rest.take 19)).plane := by
  simp only [← cost_tally]
  rfl

theorem exists_firstCheapest_splitter (eps : K) (first : Polygon K) (rest : List (Polygon K)) :
    ∃ k, FirstCheapest eps (first :: rest) k (splitter eps first rest) := by
  obtain ⟨before, after, heq, hbefore, -⟩ :=
    exists_eq_append_cheapest (fun q => costOf eps (first :: rest) q.plane) first (rest.take 19)
  have hleast := (cheapest_spec (fun q => costOf eps (first :: rest) q.plane) first
    (rest.take 19)).2
  rw [splitter_eq_cheapest]
  generalize cheapest _ first (rest.take 19) = c at *
  have hcandidates : (first :: rest).take 20 = before ++ c :: after := heq
  have hlength := congrArg List.length hcandidates
  rw [List.length_take, List.length_append, List.length_cons (a := c)] at hlength
  have hget : ∀ j < 20, (first :: rest)[j]? = (before ++ c :: after)[j]? := fun j hj => by
    rw [← hcandidates, List.getElem?_take_of_lt hj]
  refine ⟨before.length, by omega, ?_, fun j q hj hq => ?_, fun j q hj hq => ?_⟩
  · rw [hget _ (by omega), List.getElem?_append_right (le_refl _), Nat.sub_self]
    rfl
  · rw [hget j (by omega), ← hcandidates] at hq
    exact hleast q (List.mem_of_getElem? hq)
  · rw [hget j (by omega), List.getElem?_append_left hj] at hq
    exact hbefore q (List.mem_of_getElem? hq)

/-- **The plane that is chosen is the first of the cheapest.** It is thus the plane of one of the
polygons, and more polygons that lie on all candidates make no difference to a list that has twenty
of them. The choice by costs that are doubles is the same while these are exact, which they are for
less than `2 ^ 50` polygons: `costOf_le`. -/
theorem splitter_firstCheapest (eps : K) (first : Polygon K) (rest : List (Polygon K)) :
    (∃ k, FirstCheapest eps (first :: rest) k (splitter eps first rest)) ∧
    (∃ q ∈ first :: rest, splitter eps first rest = q.plane) ∧
    (∀ extra, 20 ≤ (first :: rest).length →
      (∀ q ∈ (first :: rest).take 20, ∀ r ∈ extra, q.plane.sideOfPolygon eps r = .on) →
      splitter eps first (rest ++ extra) = splitter eps first rest) ∧
    ((∀ q ∈ (first :: rest).take 20, costOf eps (first :: rest) q.plane < 2 ^ 53) →
      scoredSplitter eps first rest = splitter eps first rest) := by
  refine ⟨exists_firstCheapest_splitter eps first rest, exists_splitter_eq eps first rest,
    fun extra hlength hextra => ?_, scoredSplitter_eq⟩
  have htake : (rest ++ extra).take 19 = rest.take 19 :=
    List.take_append_of_le_length (Nat.le_of_succ_le_succ hlength)
  have hcost : ∀ q ∈ first :: rest.take 19, costOf eps (first :: (rest ++ extra)) q.plane =
      costOf eps (first :: rest) q.plane := fun q hq =>
    costOf_append (first :: rest) (hextra q hq)
  rw [splitter_eq_cheapest, splitter_eq_cheapest, htake, cheapest_congr hcost]

/-- A triangle that reaches three below the ground and three above it. -/
def tall (p : Plane Double) : Polygon Double :=
  ⟨[⟨⟨0, 1, -.ofNat 3⟩, ⟨1, 0, 0⟩⟩, ⟨⟨0, -1, .ofNat 3⟩, ⟨1, 0, 0⟩⟩,
    ⟨⟨0, 1, .ofNat 3⟩, ⟨1, 0, 0⟩⟩], p⟩

/-- A triangle of the size of the tolerance. -/
def tiny : Polygon Double :=
  ⟨[⟨⟨0, 1, -1⟩, ⟨1, 0, 0⟩⟩, ⟨⟨0, -1, 1⟩, ⟨1, 0, 0⟩⟩, ⟨⟨0, 1, 1⟩, ⟨1, 0, 0⟩⟩], ⟨⟨1, 0, 0⟩, 0⟩⟩

/-- The wall that the triangles stand on. -/
def wall : Plane Double := ⟨⟨1, 0, 0⟩, 0⟩

/-- Of twenty triangles on a wall all but the second come with the plane of the ground, which cuts
them all. The wall is chosen, also if a tiny triangle is added. -/
theorem splitter_firstCheapest_wall : ∃ first rest extra, first = tall .ground ∧
    rest = tall wall :: List.replicate 18 (tall .ground) ∧ extra = [tiny] ∧
    splitter 1 first (rest ++ extra) = wall ∧ scoredSplitter 1 first rest = wall := by
  obtain ⟨⟨k, hk⟩, -, hextra, hscored⟩ := splitter_firstCheapest 1 (tall .ground)
    (tall wall :: List.replicate 18 (tall .ground))
  have hground : 0 < costOf 1 (tall .ground :: tall wall :: List.replicate 18 (tall .ground))
      .ground := by decide +kernel
  have hwall : costOf 1 (tall .ground :: tall wall :: List.replicate 18 (tall .ground)) wall
      = 0 := by decide +kernel
  have hchosen : splitter 1 (tall .ground) (tall wall :: List.replicate 18 (tall .ground)) =
      wall := by
    rcases k with - | - | k
    · have hplane : _ = Plane.ground := (Option.some.inj hk.eq_plane).symm
      have hle := hk.least 1 (tall wall) (by decide) rfl
      rw [hplane] at hle
      exact absurd (hground.trans_le (hle.trans_eq hwall)) (Nat.lt_irrefl 0)
    · exact (Option.some.inj hk.eq_plane).symm
    · have hlt := hk.leftmost 1 (tall wall) (by omega) rfl
      exact absurd (hlt.trans_eq hwall) (Nat.not_lt_zero _)
  have hwallOn : wall.sideOfPolygon 1 tiny = .on := by decide +kernel
  have hgroundOn : Plane.ground.sideOfPolygon 1 tiny = .on := by decide +kernel
  refine ⟨_, _, [tiny], rfl, rfl, rfl, (hextra [tiny] (by decide) fun q hq => ?_).trans hchosen,
    (hscored fun q _ => (costOf_le 1 q.plane _).trans_lt (by decide)).trans hchosen⟩
  have hplane : q.plane = .ground ∨ q.plane = wall := by
    rcases List.mem_cons.mp (List.mem_of_mem_take hq) with rfl | hq
    · exact .inl rfl
    rcases List.mem_cons.mp hq with rfl | hq
    · exact .inr rfl
    · rw [List.eq_of_mem_replicate hq]
      exact .inl rfl
  rw [List.forall_mem_singleton]
  rcases hplane with h | h <;> rw [h]
  · exact hgroundOn
  · exact hwallOn

end Tree

end Solids
