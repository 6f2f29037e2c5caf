import Solids.Proofs.Outline
/-!
# Solids.Proofs.Opposite

**Opposite numbers.** A plane that is turned over has the opposite normal and the opposite offset,
and whatever is computed with it comes out opposite. So front and back are exchanged, and an edge
still meets the plane in the same place, because that is found by a quotient of two numbers that
both turn round.

None of this takes exact numbers. What it takes is that negation is exact; how anything else is
rounded does not matter, as long as opposite numbers are rounded to opposite ones.

Main definitions:

* `Scalar.NegationIsExact` — negation loses nothing and commutes with the other operations;
* `Scalar.HasOpposites` — the same for a relation between numbers, which says less about zero;
* `Pieces.exchange` — the pieces of a cut with front and back exchanged.

Main statements, for all numbers with opposites:

* `Scalar.HasOpposites.sideOfPolygon_flip` — every polygon is on the other side then;
* `Scalar.HasOpposites.split_flip_iff` — when the pieces of a cut are exchanged.
-/

namespace Solids

/-- The pieces of a cut with front and back exchanged. -/
def Pieces.exchange {K : Type} (s : Pieces K) : Pieces K :=
  ⟨s.onBack, s.onFront, s.back, s.front⟩

namespace Scalar

section Laws

variable {K : Type} [Scalar K]

/-- Negation is exact: negated twice a number is what it was, an operation on the opposite numbers
has the opposite result, and the order of the opposite numbers is turned round. Nothing is said of
how the operations are rounded. -/
structure NegationIsExact (K : Type) [Scalar K] : Prop where
  /-- Nothing is lost. -/
  neg_neg (a : K) : - -a = a
  /-- Zero is its own opposite. -/
  neg_zero : -(0 : K) = 0
  /-- The opposite of a sum. -/
  neg_add (a b : K) : -(a + b) = -a + -b
  /-- The opposite of a difference. -/
  neg_sub (a b : K) : -(a - b) = -a - -b
  /-- The opposite of a product. -/
  neg_mul (a b : K) : -(a * b) = -a * b
  /-- The opposite of a quotient, from the dividend. -/
  neg_div (a b : K) : -(a / b) = -a / b
  /-- The opposite of a quotient, from the divisor. -/
  div_neg (a b : K) : -(a / b) = a / -b
  /-- The order is turned round. -/
  neg_lt_neg (a b : K) : -a < -b ↔ b < a
  /-- No number is below itself. -/
  lt_irrefl (a : K) : ¬ a < a
  /-- What is below a number is below all numbers above that one. -/
  lt_trans (a b c : K) : a < b → b < c → a < c
  /-- A number other than zero is on one side of it. -/
  lt_or_lt_of_ne_zero (a : K) : a ≠ 0 → a < 0 ∨ 0 < a
  /-- The length that counts as none is positive. -/
  epsilon_pos : (0 : K) < epsilon

/-- The relation says which numbers are opposite, as far as geometry can tell. A number may have
more than one opposite, as long as they compare alike. -/
structure HasOpposites (opposite : K → K → Prop) : Prop where
  /-- The negated number is an opposite. -/
  neg (a : K) : opposite a (-a)
  /-- Numbers are opposite to each other. -/
  symm {a a' : K} : opposite a a' → opposite a' a
  /-- Zero is its own opposite. -/
  zero : opposite 0 0
  /-- Sums of opposite numbers are opposite. -/
  add {a a' b b' : K} : opposite a a' → opposite b b' → opposite (a + b) (a' + b')
  /-- Differences of opposite numbers are opposite. -/
  sub {a a' b b' : K} : opposite a a' → opposite b b' → opposite (a - b) (a' - b')
  /-- Products of opposite numbers with the same number are opposite. -/
  mul {a a' : K} (b : K) : opposite a a' → opposite (a * b) (a' * b)
  /-- The order is turned round. -/
  lt_iff {a a' b b' : K} : opposite a a' → opposite b b' → (a' < b' ↔ b < a)
  /-- The quotient of two opposite numbers is that of the numbers, if neither of these is zero. For
  a difference it is enough to know so of the difference the other way round. -/
  div_eq {a b c d d' : K} : a - b < 0 ∨ 0 < a - b → d < 0 ∨ 0 < d → opposite (b - a) c →
    opposite d d' → c / d' = (b - a) / d
  /-- No number is below itself. -/
  lt_irrefl (a : K) : ¬ a < a
  /-- What is below a number is below all numbers above that one. -/
  lt_trans {a b c : K} : a < b → b < c → a < c
  /-- The length that counts as none is positive. -/
  epsilon_pos : (0 : K) < epsilon

/-- Where negation is exact, every number has one opposite. -/
theorem NegationIsExact.hasOpposites (h : NegationIsExact K) :
    HasOpposites fun a a' : K => a' = -a where
  neg _ := rfl
  symm := by
    rintro a _ rfl
    exact (h.neg_neg a).symm
  zero := h.neg_zero.symm
  add := by
    rintro a _ b _ rfl rfl
    exact (h.neg_add a b).symm
  sub := by
    rintro a _ b _ rfl rfl
    exact (h.neg_sub a b).symm
  mul := by
    rintro a _ b rfl
    exact (h.neg_mul a b).symm
  lt_iff := by
    rintro a _ b _ rfl rfl
    exact h.neg_lt_neg a b
  div_eq := by
    rintro a b _ d _ - - rfl rfl
    rw [← h.div_neg, ← h.neg_div, h.neg_neg]
  lt_irrefl := h.lt_irrefl
  lt_trans := h.lt_trans _ _ _
  epsilon_pos := h.epsilon_pos

theorem NegationIsExact.ne_zero_iff (h : NegationIsExact K) {a : K} :
    a ≠ 0 ↔ a < 0 ∨ 0 < a := by
  refine ⟨h.lt_or_lt_of_ne_zero a, ?_⟩
  rintro (hlt | hlt) rfl
  · exact h.lt_irrefl _ hlt
  · exact h.lt_irrefl _ hlt

end Laws

theorem negationIsExact_real : NegationIsExact ℝ where
  neg_neg := neg_neg
  neg_zero := neg_zero
  neg_add := neg_add
  neg_sub a b := by ring
  neg_mul := neg_mul_eq_neg_mul
  neg_div a b := (neg_div b a).symm
  div_neg a b := (div_neg a).symm
  neg_lt_neg a b := neg_lt_neg_iff
  lt_irrefl := lt_irrefl
  lt_trans a b c := lt_trans
  lt_or_lt_of_ne_zero a := lt_or_gt_of_ne
  epsilon_pos := epsilon_pos

theorem hasOpposites_real : HasOpposites fun a a' : ℝ => a' = -a :=
  negationIsExact_real.hasOpposites

namespace HasOpposites

variable {K : Type} [Scalar K] {opposite : K → K → Prop} (h : HasOpposites opposite)

include h

/-! ### Comparisons -/

section Order

variable {a a' b eps : K}

theorem not_lt_of_lt (hab : a < b) : ¬ b < a := fun hba => h.lt_irrefl a (h.lt_trans hab hba)

theorem lt_neg_iff (ha : opposite a a') (b : K) : a' < -b ↔ b < a := h.lt_iff ha (h.neg b)

theorem lt_opposite_iff (ha : opposite a a') (b : K) : b < a' ↔ a < -b :=
  h.lt_iff (h.symm (h.neg b)) ha

theorem lt_zero_iff (ha : opposite a a') : a' < 0 ↔ 0 < a := h.lt_iff ha h.zero

theorem zero_lt_iff (ha : opposite a a') : 0 < a' ↔ a < 0 := h.lt_iff h.zero ha

theorem neg_lt_zero (ha : 0 < a) : -a < 0 := (h.lt_zero_iff (h.neg a)).mpr ha

theorem not_lt_neg (ha : 0 < a) : ¬ a < -a := h.not_lt_of_lt (h.lt_trans (h.neg_lt_zero ha) ha)

/-- What is at a distance from zero is not zero. -/
theorem lt_or_lt_of_far (heps : 0 < eps) (hfar : a < -eps ∨ eps < a) : a < 0 ∨ 0 < a :=
  hfar.imp (fun hlt => h.lt_trans hlt (h.neg_lt_zero heps)) (h.lt_trans heps)

theorem lt_abs_iff (heps : 0 < eps) : eps < abs a ↔ a < -eps ∨ eps < a := by
  unfold abs
  split
  · next hneg =>
    rw [h.lt_opposite_iff (h.neg a)]
    exact (or_iff_left fun hlt => h.not_lt_of_lt hneg (h.lt_trans heps hlt)).symm
  · next hneg =>
    exact (or_iff_right fun hlt => hneg (h.lt_trans hlt (h.neg_lt_zero heps))).symm

theorem lt_abs_opposite_iff (heps : 0 < eps) (ha : opposite a a') : eps < abs a' ↔ eps < abs a := by
  rw [h.lt_abs_iff heps, h.lt_abs_iff heps, h.lt_neg_iff ha, h.lt_opposite_iff ha, or_comm]

end Order

/-! ### Planes turned over -/

variable {eps : K} {p : Plane K} {q : Polygon K}

theorem dot (n x : Vec3 K) : opposite (n.dot x) ((-n).dot x) :=
  h.add (h.add (h.mul x.x (h.neg n.x)) (h.mul x.y (h.neg n.y))) (h.mul x.z (h.neg n.z))

theorem signedDistance (p : Plane K) (x : Vec3 K) :
    opposite (p.signedDistance x) (p.flip.signedDistance x) :=
  h.sub (h.dot p.normal x) (h.neg p.w)

theorem sideOf_flip (heps : ¬ eps < -eps) (x : Vec3 K) :
    p.flip.sideOf eps x = (p.sideOf eps x).flip := by
  have hopposite := h.signedDistance p x
  simp only [Plane.sideOf, h.lt_neg_iff hopposite, h.lt_opposite_iff hopposite]
  by_cases hback : p.signedDistance x < -eps
  · have hfront : ¬ eps < p.signedDistance x := fun hlt => heps (h.lt_trans hlt hback)
    rw [if_neg hfront, if_pos hback, if_pos hback, Side.flip]
  · rw [if_neg hback, if_neg hback]
    split <;> rfl

/-- **A plane that is turned over has every polygon on its other side.** -/
theorem sideOfPolygon_flip (heps : ¬ eps < -eps) (q : Polygon K) :
    p.flip.sideOfPolygon eps q = (p.sideOfPolygon eps q).flip := by
  have hfold : ∀ (l : List (Vertex K)) (s : Side),
      l.foldl (fun s v => s.join (p.flip.sideOf eps v.pos)) s.flip =
        (l.foldl (fun s v => s.join (p.sideOf eps v.pos)) s).flip := by
    intro l
    induction l with
    | nil => exact fun s => rfl
    | cons v l ih =>
      intro s
      rw [List.foldl_cons, List.foldl_cons, h.sideOf_flip heps, ← Side.flip_join, ih]
  exact hfold q.vertices .on

/-! ### Cuts with a plane turned over -/

omit h in
/-- A corner that is not on the plane is at a distance from it. -/
theorem far_of_sideOf_ne_on {x : Vec3 K} (hside : p.sideOf eps x ≠ .on) :
    p.signedDistance x < -eps ∨ eps < p.signedDistance x := by
  simp only [Plane.sideOf] at hside
  split_ifs at hside with hback hfront
  · exact .inl hback
  · exact .inr hfront
  · exact absurd rfl hside

omit h in
theorem sideOf_ne_on_of_join {a b : Vec3 K}
    (hjoin : (p.sideOf eps a).join (p.sideOf eps b) = .across) : p.sideOf eps a ≠ .on := by
  intro hon
  rw [hon, Side.on_join] at hjoin
  simp only [Plane.sideOf] at hjoin
  split_ifs at hjoin

/-- An edge meets the plane in the same place. -/
theorem crossing?_flip (heps : 0 < eps) (a b : Vertex K) :
    p.flip.crossing? ⟨a, p.flip.sideOf eps a.pos⟩ ⟨b, p.flip.sideOf eps b.pos⟩ =
      p.crossing? ⟨a, p.sideOf eps a.pos⟩ ⟨b, p.sideOf eps b.pos⟩ := by
  have hnonneg := h.not_lt_neg heps
  have hacross : ∀ s : Side, s.flip = .across ↔ s = .across := by
    intro s
    cases s <;> simp [Side.flip]
  have halong := h.dot p.normal (b.pos - a.pos)
  unfold Plane.crossing?
  simp only [h.sideOf_flip hnonneg, ← Side.flip_join, hacross, Plane.flip_normal,
    Plane.flip_w, h.lt_abs_opposite_iff h.epsilon_pos halong]
  split
  · next hjoin =>
    split
    · next hlong =>
      -- both distances turn round, and neither of them is zero
      have hdistance := h.lt_or_lt_of_far heps (far_of_sideOf_ne_on (sideOf_ne_on_of_join hjoin))
      have hlength := h.lt_or_lt_of_far h.epsilon_pos ((h.lt_abs_iff h.epsilon_pos).mp hlong)
      rw [h.div_eq hdistance hlength (h.sub (h.neg p.w) (h.dot p.normal a.pos)) halong]
    · rfl
  · rfl

theorem partWithout_flip (heps : 0 < eps) (away : Side) (l : List (Vertex K)) :
    p.flip.partWithout away (Plane.edges (l.map fun v => ⟨v, p.flip.sideOf eps v.pos⟩)) =
      p.partWithout away.flip (Plane.edges (l.map fun v => ⟨v, p.sideOf eps v.pos⟩)) := by
  have hnonneg := h.not_lt_neg heps
  have haway : ∀ s : Side, s.flip = away ↔ s = away.flip := by
    intro s
    cases s <;> cases away <;> simp [Side.flip]
  unfold Plane.partWithout
  rw [Outline.edges_map (fun v => (⟨v, p.flip.sideOf eps v.pos⟩ : SidedVertex K)),
    Outline.edges_map (fun v => (⟨v, p.sideOf eps v.pos⟩ : SidedVertex K)), List.flatMap_map,
    List.flatMap_map]
  refine List.flatMap_congr fun e _ => ?_
  -- the crossings first: they are known for the sides that the corners are found to be on
  simp only [Prod.map_fst, Prod.map_snd, h.crossing?_flip heps]
  simp only [h.sideOf_flip hnonneg, haway]

/-- **The pieces of a cut with the plane turned over.** They are exchanged, unless the polygon is on
the plane and its own plane neither faces the same way nor the opposite one. -/
theorem split_flip_iff (heps : 0 < eps) (p : Plane K) (q : Polygon K) :
    p.flip.split eps q = (p.split eps q).exchange ↔
      p.sideOfPolygon eps q ≠ .on ∨ p.normal.dot q.plane.normal < 0 ∨
        0 < p.normal.dot q.plane.normal := by
  have hnonneg := h.not_lt_neg heps
  have hfaces := h.zero_lt_iff (h.dot p.normal q.plane.normal)
  have hflip := h.sideOfPolygon_flip (p := p) hnonneg q
  unfold Plane.split
  cases hside : p.sideOfPolygon eps q with
  | on =>
    simp only [hflip, hside, Side.flip, Plane.flip_normal, hfaces, ne_eq, not_true_eq_false,
      false_or]
    by_cases hback : p.normal.dot q.plane.normal < 0
    · simp [hback, h.not_lt_of_lt hback, Pieces.exchange]
    · by_cases hfront : 0 < p.normal.dot q.plane.normal <;> simp [hback, hfront, Pieces.exchange]
  | front => simp [hflip, hside, Side.flip, Pieces.exchange]
  | back => simp [hflip, hside, Side.flip, Pieces.exchange]
  | across =>
    simp [hflip, hside, Side.flip, Pieces.exchange, h.partWithout_flip heps]

end HasOpposites

end Scalar

end Solids
