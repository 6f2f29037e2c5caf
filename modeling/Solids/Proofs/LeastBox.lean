import Solids.BoundingBox
import Solids.Proofs.Refusals
import Solids.Proofs.SignedZero
/-!
# Solids.Proofs.LeastBox

**The box of some doubles.** Doubles have no order that covers a NaN, but finite ones are ordered
like a rank that is read off their digits, so a box that is found in one pass over finite points is
the least one that holds them.

Main statements:

* `Double.le_iff_rank` — numbers are ordered like their ranks;
* `BoundingBox.holds_ofPoints` and `BoundingBox.Holds.of_ofPoints` — the box of finite points holds
  them, and is inside every box that does;
* `BoundingBox.isFinite_ofPoints` — its corners are finite.
-/

namespace Solids

open Float.Model (UnpackedFloat)
open Float.Model.UnpackedFloat

/-! ### The order of doubles -/

/-- The place of a number in the order: its kind, then its exponent, and then its digits. Among
negative numbers the order is the other way round. -/
def rank : UnpackedFloat → ℤ ×ₗ ℤ ×ₗ ℤ
  | .notANumber => toLex (0, toLex (0, 0))
  | .infinity .negative => toLex (-2, toLex (0, 0))
  | .finite .negative mantissa exponent _ => toLex (-1, toLex (-exponent, -mantissa))
  | .zero _ => toLex (0, toLex (0, 0))
  | .finite .positive mantissa exponent _ => toLex (1, toLex (exponent, mantissa))
  | .infinity .positive => toLex (2, toLex (0, 0))

theorem rank_le_rank {a b c a' b' c' : ℤ} :
    (toLex (a, toLex (b, c)) : ℤ ×ₗ ℤ ×ₗ ℤ) ≤ toLex (a', toLex (b', c')) ↔
      a < a' ∨ a = a' ∧ (b < b' ∨ b = b' ∧ c ≤ c') := by
  rw [Prod.Lex.toLex_le_toLex, Prod.Lex.toLex_le_toLex]

theorem isLE_compare_then_iff {e e' : ℤ} {m m' : ℕ} :
    ((compare e e').then (compare m m')).isLE = true ↔ e < e' ∨ e = e' ∧ m ≤ m' := by
  rw [Ordering.isLE_then_iff_or, Std.compare_eq_lt, Std.LawfulEqOrd.compare_eq_iff_eq,
    Std.isLE_compare]

theorem le_iff_rank {u v : UnpackedFloat} (hu : u ≠ .notANumber) (hv : v ≠ .notANumber) :
    u.le v = true ↔ rank u ≤ rank v := by
  cases u with
  | notANumber => exact absurd rfl hu
  | infinity s =>
    cases v with
    | notANumber => exact absurd rfl hv
    | infinity s' => cases s <;> cases s' <;> decide
    | zero s' => cases s <;> cases s' <;> decide
    | finite s' m' e' hm' =>
      cases s <;> cases s' <;> simp [UnpackedFloat.le, UnpackedFloat.compare, rank, rank_le_rank]
  | zero s =>
    cases v with
    | notANumber => exact absurd rfl hv
    | infinity s' => cases s <;> cases s' <;> decide
    | zero s' => exact iff_of_true rfl (le_refl _)
    | finite s' m' e' hm' =>
      cases s' <;> simp [UnpackedFloat.le, UnpackedFloat.compare, rank, rank_le_rank]
  | finite s m e hm =>
    cases v with
    | notANumber => exact absurd rfl hv
    | infinity s' =>
      cases s <;> cases s' <;> simp [UnpackedFloat.le, UnpackedFloat.compare, rank, rank_le_rank]
    | zero s' =>
      cases s <;> simp [UnpackedFloat.le, UnpackedFloat.compare, rank, rank_le_rank]
    | finite s' m' e' hm' =>
      cases s <;> cases s'
      · rw [le_negative hm hm', isLE_compare_then_iff, rank, rank, rank_le_rank]
        omega
      · simp [UnpackedFloat.le, UnpackedFloat.compare, rank, rank_le_rank]
      · simp [UnpackedFloat.le, UnpackedFloat.compare, rank, rank_le_rank]
      · refine isLE_compare_then_iff.trans ?_
        rw [rank, rank, rank_le_rank]
        omega

namespace Double

variable {x y z : Double}

/-- The place of a double in the order. -/
def rank : Double → ℤ ×ₗ ℤ ×ₗ ℤ
  | .number a _ => Solids.rank a.toModel.unpack
  | .nan _ => Solids.rank .notANumber

theorem unpack_ne_notANumber {a : Float} (h : a.isNaN = false) :
    a.toModel.unpack ≠ .notANumber := by
  intro hunpack
  change a.toModel.unpack.isNaN = false at h
  rw [hunpack] at h
  cases h

/-- **Numbers are ordered like their ranks.** -/
theorem le_iff_rank {a b : Float} {ha : a.isNaN = false} {hb : b.isNaN = false} :
    number a ha ≤ number b hb ↔ (number a ha).rank ≤ (number b hb).rank :=
  le_iff_unpack.trans
    (Solids.le_iff_rank (unpack_ne_notANumber ha) (unpack_ne_notANumber hb))

theorem le_trans (hxy : x ≤ y) (hyz : y ≤ z) : x ≤ z := by
  cases x with
  | nan negative => exact absurd hxy (not_nan_le negative y)
  | number a ha =>
    cases y with
    | nan negative => exact absurd hyz (not_nan_le negative z)
    | number b hb =>
      cases z with
      | nan negative => exact absurd hyz (not_le_nan negative _)
      | number c hc => exact le_iff_rank.mpr ((le_iff_rank.mp hxy).trans (le_iff_rank.mp hyz))

theorem le_total (hx : x.isFinite = true) (hy : y.isFinite = true) : x ≤ y ∨ y ≤ x := by
  cases x with
  | nan negative => cases hx
  | number a ha =>
    cases y with
    | nan negative => cases hy
    | number b hb =>
      rw [le_iff_rank, le_iff_rank]
      exact LinearOrder.le_total _ _

/-- The largest double and its negative are finite, and all finite ones are between them. -/
theorem exists_largest : ∃ most : Double, (Scalar.largest? : Option Double) = some most ∧
    most.isFinite = true ∧ (-most).isFinite = true ∧
    ∀ x : Double, x.isFinite = true → -most ≤ x ∧ x ≤ most := by
  have hlargest : (Scalar.largest? : Option Double) = some largest := rfl
  have hfinite : largest.isFinite = true ∧ (-largest).isFinite = true := by decide +kernel
  refine ⟨largest, hlargest, hfinite.1, hfinite.2, fun x hx => ?_⟩
  have hx := scalar_isFinite hx
  rw [Scalar.isFinite, hlargest] at hx
  simpa using hx

end Double

/-! ### Extremes of a list -/

section Extremes

variable {α : Type} {r : α → α → Prop} {p : α → Prop} {choose : α → α → α} {c s : α} {l : List α}

/-- What is below everything is below the one that is chosen. -/
theorem rel_foldl (hchoose : ∀ a b, (choose a b = a ∧ r a b) ∨ (choose a b = b ∧ ¬ r a b))
    (hs : r c s) (hl : ∀ x ∈ l, r c x) : r c (l.foldl choose s) := by
  induction l generalizing s with
  | nil => exact hs
  | cons x l ih =>
    refine ih ?_ fun y hy => hl y (.tail x hy)
    rcases hchoose s x with ⟨h, -⟩ | ⟨h, -⟩
    · rw [h]
      exact hs
    · rw [h]
      exact hl x (.head l)

/-- The one that is chosen is below everything. -/
theorem foldl_rel (hchoose : ∀ a b, (choose a b = a ∧ r a b) ∨ (choose a b = b ∧ ¬ r a b))
    (htotal : ∀ a b, p a → p b → r a b ∨ r b a) (htrans : ∀ a b c, r a b → r b c → r a c)
    (hs : p s) (hl : ∀ x ∈ l, p x) : p (l.foldl choose s) ∧
      r (l.foldl choose s) s ∧ ∀ x ∈ l, r (l.foldl choose s) x := by
  have hrefl : ∀ a, p a → r a a := fun a ha => (htotal a a ha ha).elim id id
  induction l generalizing s with
  | nil => exact ⟨hs, hrefl s hs, nofun⟩
  | cons x l ih =>
    have hx : p x := hl x (.head l)
    obtain ⟨hp, hles, hlex⟩ : p (choose s x) ∧ r (choose s x) s ∧ r (choose s x) x := by
      rcases hchoose s x with ⟨h, hr⟩ | ⟨h, hr⟩
      · rw [h]
        exact ⟨hs, hrefl s hs, hr⟩
      · rw [h]
        exact ⟨hx, (htotal s x hs hx).resolve_left hr, hrefl x hx⟩
    obtain ⟨hfold, hfirst, hrest⟩ := ih hp fun y hy => hl y (.tail x hy)
    refine ⟨hfold, htrans _ _ _ hfirst hles, ?_⟩
    intro y hy
    rcases List.mem_cons.mp hy with rfl | hy
    · exact htrans _ _ _ hfirst hlex
    · exact hrest y hy

end Extremes

/-! ### Boxes -/

namespace BoundingBox

/-- The point is in the box, be it on the surface. -/
structure Holds {K : Type} [Scalar K] (b : BoundingBox K) (p : Vec3 K) : Prop where
  /-- Along the first axis. -/
  x_mem : b.lower.x ≤ p.x ∧ p.x ≤ b.upper.x
  /-- Along the second axis. -/
  y_mem : b.lower.y ≤ p.y ∧ p.y ≤ b.upper.y
  /-- Along the third axis. -/
  z_mem : b.lower.z ≤ p.z ∧ p.z ≤ b.upper.z

/-- The corners are found axis by axis. -/
theorem foldl_enclose_eq {K : Type} [Scalar K] (b : BoundingBox K) (points : List (Vec3 K)) :
    points.foldl enclose b =
      ⟨⟨(points.map Vec3.x).foldl Scalar.smaller b.lower.x,
        (points.map Vec3.y).foldl Scalar.smaller b.lower.y,
        (points.map Vec3.z).foldl Scalar.smaller b.lower.z⟩,
      ⟨(points.map Vec3.x).foldl Scalar.larger b.upper.x,
        (points.map Vec3.y).foldl Scalar.larger b.upper.y,
        (points.map Vec3.z).foldl Scalar.larger b.upper.z⟩⟩ := by
  induction points generalizing b with
  | nil => rfl
  | cons p points ih =>
    rw [List.foldl_cons, ih]
    rfl

variable {b : BoundingBox Double} {p : Vec3 Double} {points : List (Vec3 Double)}

theorem smaller_spec (a b : Double) :
    (Scalar.smaller a b = a ∧ a ≤ b) ∨ (Scalar.smaller a b = b ∧ ¬ a ≤ b) := by
  rw [Scalar.smaller]
  split
  · next h => exact .inl ⟨rfl, h⟩
  · next h => exact .inr ⟨rfl, h⟩

theorem larger_spec (a b : Double) :
    (Scalar.larger a b = a ∧ b ≤ a) ∨ (Scalar.larger a b = b ∧ ¬ b ≤ a) := by
  rw [Scalar.larger]
  split
  · next h => exact .inl ⟨rfl, h⟩
  · next h => exact .inr ⟨rfl, h⟩

/-- The extremes of finite doubles. -/
structure IsSpan (coordinates : List Double) (lower upper : Double) : Prop where
  /-- The extremes are finite. -/
  isFinite : lower.isFinite = true ∧ upper.isFinite = true
  /-- They are on either side of every double. -/
  mem : ∀ x ∈ coordinates, lower ≤ x ∧ x ≤ upper
  /-- Nothing closer is. -/
  least : ∀ a b, (∀ x ∈ coordinates, a ≤ x ∧ x ≤ b) → a ≤ lower ∧ upper ≤ b

theorem isSpan_foldl {coordinates : List Double} {most : Double} (hne : coordinates ≠ [])
    (hfinite : ∀ x ∈ coordinates, x.isFinite = true) (hmost : most.isFinite = true)
    (hleast : (-most).isFinite = true)
    (hbounds : ∀ x : Double, x.isFinite = true → -most ≤ x ∧ x ≤ most) :
    IsSpan coordinates (coordinates.foldl Scalar.smaller most)
      (coordinates.foldl Scalar.larger (-most)) := by
  obtain ⟨hlower, -, hle⟩ := foldl_rel smaller_spec (fun _ _ => Double.le_total)
    (fun _ _ _ => Double.le_trans) hmost hfinite
  obtain ⟨hupper, -, hge⟩ := foldl_rel (r := fun a b : Double => b ≤ a) larger_spec
    (fun _ _ ha hb => Double.le_total hb ha) (fun _ _ _ hba hcb => Double.le_trans hcb hba)
    hleast hfinite
  refine ⟨⟨hlower, hupper⟩, fun x hx => ⟨hle x hx, hge x hx⟩, ?_⟩
  intro a b hab
  obtain ⟨x, hx⟩ := List.exists_mem_of_ne_nil coordinates hne
  obtain ⟨hmin, hmax⟩ := hbounds x (hfinite x hx)
  exact ⟨rel_foldl smaller_spec (Double.le_trans (hab x hx).1 hmax) fun y hy => (hab y hy).1,
    rel_foldl (r := fun a b : Double => b ≤ a) larger_spec (Double.le_trans hmin (hab x hx).2)
      fun y hy => (hab y hy).2⟩

/-- Along every axis the box of finite points spans their coordinates. -/
theorem isSpan_ofPoints (hne : points ≠ [])
    (hfinite : ∀ p ∈ points, ∀ x ∈ p.toList, x.isFinite = true) :
    IsSpan (points.map Vec3.x) (ofPoints points).lower.x (ofPoints points).upper.x ∧
      IsSpan (points.map Vec3.y) (ofPoints points).lower.y (ofPoints points).upper.y ∧
      IsSpan (points.map Vec3.z) (ofPoints points).lower.z (ofPoints points).upper.z := by
  obtain ⟨most, hlargest, hmost, hleast, hbounds⟩ := Double.exists_largest
  have hspan : ∀ axis : Vec3 Double → Double, (∀ p, axis p ∈ p.toList) →
      IsSpan (points.map axis) ((points.map axis).foldl Scalar.smaller most)
        ((points.map axis).foldl Scalar.larger (-most)) := by
    intro axis haxis
    refine isSpan_foldl (by simpa using hne) ?_ hmost hleast hbounds
    intro x hx
    obtain ⟨p, hp, rfl⟩ := List.mem_map.mp hx
    exact hfinite p hp _ (haxis p)
  have hbox : ofPoints points = points.foldl enclose ⟨Vec3.splat most, Vec3.splat (-most)⟩ := by
    cases points with
    | nil => exact absurd rfl hne
    | cons p points => rw [ofPoints_cons, around, hlargest, List.foldl_cons]
  rw [hbox, foldl_enclose_eq]
  exact ⟨hspan Vec3.x fun p => by simp [Vec3.toList], hspan Vec3.y fun p => by simp [Vec3.toList],
    hspan Vec3.z fun p => by simp [Vec3.toList]⟩

/-- **The box of finite points holds them.** -/
theorem holds_ofPoints (hfinite : ∀ p ∈ points, ∀ x ∈ p.toList, x.isFinite = true)
    (hp : p ∈ points) : (ofPoints points).Holds p := by
  obtain ⟨hx, hy, hz⟩ := isSpan_ofPoints (List.ne_nil_of_mem hp) hfinite
  exact ⟨hx.mem _ (List.mem_map_of_mem hp), hy.mem _ (List.mem_map_of_mem hp),
    hz.mem _ (List.mem_map_of_mem hp)⟩

/-- **The box of finite points is the least one**: whatever it holds, every box that holds the
points does. -/
theorem Holds.of_ofPoints (h : (ofPoints points).Holds p) (hne : points ≠ [])
    (hfinite : ∀ p ∈ points, ∀ x ∈ p.toList, x.isFinite = true)
    (hb : ∀ p ∈ points, b.Holds p) : b.Holds p := by
  obtain ⟨hx, hy, hz⟩ := isSpan_ofPoints hne hfinite
  obtain ⟨hlx, hux⟩ := hx.least b.lower.x b.upper.x
    (List.forall_mem_map.mpr fun p hp => (hb p hp).x_mem)
  obtain ⟨hly, huy⟩ := hy.least b.lower.y b.upper.y
    (List.forall_mem_map.mpr fun p hp => (hb p hp).y_mem)
  obtain ⟨hlz, huz⟩ := hz.least b.lower.z b.upper.z
    (List.forall_mem_map.mpr fun p hp => (hb p hp).z_mem)
  exact ⟨⟨Double.le_trans hlx h.x_mem.1, Double.le_trans h.x_mem.2 hux⟩,
    ⟨Double.le_trans hly h.y_mem.1, Double.le_trans h.y_mem.2 huy⟩,
    ⟨Double.le_trans hlz h.z_mem.1, Double.le_trans h.z_mem.2 huz⟩⟩

/-- The corners of the box of finite points are finite, also if there are none. -/
theorem isFinite_ofPoints (hfinite : ∀ p ∈ points, ∀ x ∈ p.toList, x.isFinite = true) :
    ∀ x ∈ (ofPoints points).lower.toList ++ (ofPoints points).upper.toList,
      x.isFinite = true := by
  by_cases hne : points = []
  · have hzero : (0 : Double).isFinite = true := by decide +kernel
    subst hne
    simp [origin, Vec3.toList, hzero]
  · obtain ⟨hx, hy, hz⟩ := isSpan_ofPoints hne hfinite
    simp [Vec3.toList, hx.isFinite, hy.isFinite, hz.isFinite]

end BoundingBox

end Solids
