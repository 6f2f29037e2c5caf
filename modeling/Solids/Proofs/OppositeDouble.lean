import Solids.Proofs.LeastBox
import Solids.Proofs.Opposite
/-!
# Solids.Proofs.OppositeDouble

**Opposite doubles.** Doubles are rounded the same way above and below zero, so an operation on the
opposite doubles has the opposite result. There are two exceptions. A difference of equal numbers is
the positive zero either way round, and a NaN keeps the sign that it was made with. Neither of them
shows in a comparison, and a crossing is never computed from a zero or a NaN. So the cut of a face
with a plane that is turned over has the same pieces, and the same doubles in them.

Main definitions:

* `OppositeSign` — decoded doubles with opposite signs, or two zeros;
* `Double.IsOpposite` — doubles that are opposite, as far as geometry can tell.

Main statements:

* `Double.hasOpposites` — what geometry needs of opposite numbers holds of doubles;
* `Plane.flip_exchanges_pieces` — a plane that is turned over exchanges the pieces of a cut.
-/

namespace Solids

open Float.Model (Format UnpackedFloat)
open Float.Model.UnpackedFloat

/-! ### Decoded doubles -/

/-- The one is the other with its sign turned round. The signs of zeros do not count. -/
inductive OppositeSign : UnpackedFloat → UnpackedFloat → Prop where
  /-- A NaN has no sign here. -/
  | notANumber : OppositeSign .notANumber .notANumber
  /-- Infinities of both signs. -/
  | infinity (sign : Sign) : OppositeSign (.infinity sign) (.infinity (-sign))
  /-- Two zeros. -/
  | zero (sign sign' : Sign) : OppositeSign (.zero sign) (.zero sign')
  /-- The same digits with both signs. -/
  | finite (sign : Sign) (mantissa : ℕ) (exponent : ℤ) (h : 0 < mantissa) :
    OppositeSign (.finite sign mantissa exponent h) (.finite (-sign) mantissa exponent h)

theorem apply_neg_sign (s : Sign) (n : ℤ) : (-s).apply n = -s.apply n := by
  cases s
  · exact (neg_neg n).symm
  · rfl

/-- A difference is a sum with the opposite number. -/
theorem sub_unpacked (u v : UnpackedFloat) :
    u.sub Format.binary64 v = u.add Format.binary64 v.neg := by
  cases u with
  | notANumber => cases v <;> rfl
  | infinity s => cases v <;> rfl
  | zero s => cases v <;> rfl
  | finite s m e h =>
    cases v with
    | finite t m' e' h' =>
      simp only [UnpackedFloat.sub, UnpackedFloat.add, UnpackedFloat.neg, apply_neg_sign,
        Int.sub_eq_add_neg]
    | _ => rfl

theorem add_comm_unpacked (u v : UnpackedFloat) :
    u.add Format.binary64 v = v.add Format.binary64 u := by
  cases u with
  | notANumber => cases v <;> rfl
  | infinity s =>
    cases v with
    | infinity t => cases s <;> cases t <;> rfl
    | _ => rfl
  | zero s =>
    cases v with
    | zero t => cases s <;> cases t <;> rfl
    | _ => rfl
  | finite s m e h =>
    cases v with
    | finite t m' e' h' =>
      simp only [UnpackedFloat.add, min_comm e', add_comm (t.apply _)]
    | _ => rfl

/-- Numbers can be compared either way round. -/
theorem lt_eq_not_le {u v : UnpackedFloat} (hu : u ≠ .notANumber) (hv : v ≠ .notANumber) :
    u.lt v = !v.le u := by
  have hswap : ∀ o : Ordering, (some o == some .lt) = !o.swap.isLE := by
    intro o
    cases o <;> rfl
  cases u with
  | notANumber => exact absurd rfl hu
  | infinity s =>
    cases v with
    | notANumber => exact absurd rfl hv
    | infinity t => cases s <;> cases t <;> rfl
    | _ => cases s <;> rfl
  | zero s =>
    cases v with
    | notANumber => exact absurd rfl hv
    | zero t => rfl
    | infinity t => cases t <;> rfl
    | finite t m e h => cases t <;> rfl
  | finite s m e h =>
    cases v with
    | notANumber => exact absurd rfl hv
    | infinity t => cases t <;> rfl
    | zero t => cases s <;> rfl
    | finite t m' e' h' =>
      cases s <;> cases t
      · refine (hswap _).trans ?_
        rw [Ordering.swap_swap, le_negative]
      · rfl
      · rfl
      · refine (hswap _).trans ?_
        rw [swap_compare_then]
        rfl

theorem otherSign_packComponents (s : Sign) (exponent mantissa) :
    otherSign (packComponents Format.binary64 s exponent mantissa) =
      packComponents Format.binary64 (-s) exponent mantissa := by
  simp [otherSign]

theorem pack_neg {u : UnpackedFloat} (h : u ≠ .notANumber) :
    pack Format.binary64 u.neg = otherSign (pack Format.binary64 u) := by
  cases u with
  | notANumber => exact absurd rfl h
  | infinity s => exact (otherSign_packComponents s _ _).symm
  | zero s => exact (otherSign_packComponents s _ _).symm
  | finite s m e hm =>
    simp only [UnpackedFloat.neg, pack]
    split
    · exact (otherSign_packComponents s _ _).symm
    · split <;> exact (otherSign_packComponents s _ _).symm

namespace OppositeSign

variable {u u' v v' : UnpackedFloat}

theorem neg (u : UnpackedFloat) : OppositeSign u u.neg := by
  cases u with
  | notANumber => exact notANumber
  | infinity sign => exact infinity sign
  | zero sign => exact zero sign (-sign)
  | finite sign mantissa exponent h => exact finite sign mantissa exponent h

theorem symm (h : OppositeSign u v) : OppositeSign v u := by
  cases h with
  | notANumber => exact notANumber
  | infinity sign => simpa only [neg_neg_sign] using infinity (-sign)
  | zero sign sign' => exact zero sign' sign
  | finite sign mantissa exponent h =>
    simpa only [neg_neg_sign] using finite (-sign) mantissa exponent h

/-! #### Rounding -/

theorem roundWithAccuracy (sign : Sign) (mantissa : ℕ) (exponent : ℤ) (accuracy : Accuracy) :
    OppositeSign (UnpackedFloat.roundWithAccuracy Format.binary64 sign mantissa exponent accuracy)
      (UnpackedFloat.roundWithAccuracy Format.binary64 (-sign) mantissa exponent accuracy) := by
  unfold UnpackedFloat.roundWithAccuracy
  dsimp only
  split
  · exact zero sign (-sign)
  · exact finite sign _ _ _

theorem normalize (mantissa exponent : ℤ) (sign sign' : Sign) :
    OppositeSign (UnpackedFloat.normalize Format.binary64 mantissa exponent sign)
      (UnpackedFloat.normalize Format.binary64 (-mantissa) exponent sign') := by
  unfold UnpackedFloat.normalize
  rcases lt_trichotomy mantissa 0 with hneg | rfl | hpos
  · rw [compare_lt_iff_lt.mpr hneg, compare_gt_iff_gt.mpr (neg_pos.mpr hneg)]
    exact roundWithAccuracy .negative _ _ _
  · exact zero sign sign'
  · rw [compare_gt_iff_gt.mpr hpos, compare_lt_iff_lt.mpr (neg_neg_of_pos hpos), neg_neg]
    exact roundWithAccuracy .positive _ _ _

/-! #### Operations -/

theorem add (hu : OppositeSign u u') (hv : OppositeSign v v') :
    OppositeSign (u.add Format.binary64 v) (u'.add Format.binary64 v') := by
  cases hu with
  | notANumber => exact notANumber
  | infinity s =>
    cases hv with
    | notANumber => exact notANumber
    | infinity t => cases s <;> cases t <;> first | exact infinity _ | exact notANumber
    | zero t t' => exact infinity s
    | finite t m e h => exact infinity s
  | zero s s' =>
    cases hv with
    | notANumber => exact notANumber
    | infinity t => exact infinity t
    | zero t t' => cases s <;> cases s' <;> cases t <;> cases t' <;> exact zero _ _
    | finite t m e h => exact finite t m e h
  | finite s m e h =>
    cases hv with
    | notANumber => exact notANumber
    | infinity t => exact infinity t
    | zero t t' => exact finite s m e h
    | finite t m' e' h' =>
      simp only [UnpackedFloat.add, apply_neg_sign, ← neg_add]
      exact normalize _ _ _ _

theorem neg_congr (h : OppositeSign u v) : OppositeSign u.neg v.neg := by
  cases h with
  | notANumber => exact notANumber
  | infinity s => exact infinity (-s)
  | zero s s' => exact zero (-s) (-s')
  | finite s m e h => exact finite (-s) m e h

theorem sub (hu : OppositeSign u u') (hv : OppositeSign v v') :
    OppositeSign (u.sub Format.binary64 v) (u'.sub Format.binary64 v') := by
  rw [sub_unpacked, sub_unpacked]
  exact hu.add hv.neg_congr

/-- A difference taken the other way round. -/
theorem sub_swap (u v : UnpackedFloat) :
    OppositeSign (u.sub Format.binary64 v) (v.sub Format.binary64 u) := by
  rw [sub_unpacked, sub_unpacked, add_comm_unpacked v]
  simpa only [neg_neg_unpacked] using (neg u).add (neg v.neg)

theorem mul (hu : OppositeSign u u') (v : UnpackedFloat) :
    OppositeSign (u.mul Format.binary64 v) (u'.mul Format.binary64 v) := by
  have hsign : ∀ s t : Sign, -s * t = -(s * t) := by
    intro s t
    cases s <;> cases t <;> rfl
  cases hu with
  | notANumber => exact notANumber
  | infinity s =>
    cases v <;> simp only [UnpackedFloat.mul, hsign] <;> first | exact infinity _ | exact notANumber
  | zero s s' =>
    cases v <;> first | exact zero _ _ | exact notANumber
  | finite s m e h =>
    cases v with
    | notANumber => exact notANumber
    | infinity t => simpa only [UnpackedFloat.mul, hsign] using infinity (s * t)
    | zero t => exact zero _ _
    | finite t m' e' h' =>
      simpa only [UnpackedFloat.mul, hsign] using roundWithAccuracy (s * t) (m * m') (e + e') .exact

/-- The quotient of two numbers that both turn round, neither of them being zero. -/
theorem div_eq (hu : OppositeSign u u') (hv : OppositeSign v v') (hu0 : ∀ s, u ≠ .zero s)
    (hv0 : ∀ s, v ≠ .zero s) : u'.div Format.binary64 v' = u.div Format.binary64 v := by
  have hsign : ∀ s t : Sign, -s / -t = s / t := by
    intro s t
    cases s <;> cases t <;> rfl
  cases hu with
  | zero s s' => exact absurd rfl (hu0 s)
  | notANumber => rfl
  | infinity s =>
    cases hv with
    | zero t t' => exact absurd rfl (hv0 t)
    | _ => simp only [UnpackedFloat.div, hsign]
  | finite s m e h =>
    cases hv with
    | zero t t' => exact absurd rfl (hv0 t)
    | _ => simp only [UnpackedFloat.div, hsign]

/-! #### Comparisons -/

theorem compare_eq (hu : OppositeSign u u') (hv : OppositeSign v v') :
    u'.compare v' = v.compare u := by
  cases hu with
  | notANumber => cases hv <;> rfl
  | infinity s =>
    cases hv with
    | infinity t => cases s <;> cases t <;> rfl
    | _ => cases s <;> rfl
  | zero s s' =>
    cases hv with
    | notANumber => rfl
    | zero t t' => rfl
    | infinity t => cases t <;> rfl
    | finite t m e h => cases t <;> rfl
  | finite s m e h =>
    cases hv with
    | finite t m' e' h' =>
      cases s <;> cases t
      · exact congrArg some (swap_compare_then e' e m' m).symm
      · rfl
      · rfl
      · exact congrArg some (swap_compare_then e e' m m')
    | notANumber => rfl
    | zero t t' => cases s <;> rfl
    | infinity t => cases t <;> rfl

theorem isNaN_eq (h : OppositeSign u v) : u.isNaN = v.isNaN := by cases h <;> rfl

theorem lt_eq (hu : OppositeSign u u') (hv : OppositeSign v v') : u'.lt v' = v.lt u := by
  rw [UnpackedFloat.lt, UnpackedFloat.lt, hu.compare_eq hv]

/-! #### Decoding what was encoded -/

theorem unpack_pack_neg_of_ne (h : u ≠ .notANumber) :
    OppositeSign (unpack Format.binary64 (pack Format.binary64 u))
      (unpack Format.binary64 (pack Format.binary64 u.neg)) := by
  rw [pack_neg h, unpack_otherSign]
  exact neg _

theorem unpack_pack (h : OppositeSign u v) :
    OppositeSign (unpack Format.binary64 (pack Format.binary64 u))
      (unpack Format.binary64 (pack Format.binary64 v)) := by
  cases h with
  | notANumber => exact notANumber
  | infinity s => exact unpack_pack_neg_of_ne (u := .infinity s) nofun
  | zero s s' => cases s <;> cases s' <;> exact zero _ _
  | finite s m e h => exact unpack_pack_neg_of_ne (u := .finite s m e h) nofun

end OppositeSign

/-! ### Doubles -/

namespace Double

/-- Two doubles that are opposite, as far as geometry can tell: two numbers with opposite signs, two
zeros, or two NaNs. -/
inductive IsOpposite : Double → Double → Prop where
  /-- Numbers of which one is the other with its sign turned round. -/
  | number {a b : Float} (ha : a.isNaN = false) (hb : b.isNaN = false)
    (h : OppositeSign a.toModel.unpack b.toModel.unpack) : IsOpposite (number a ha) (number b hb)
  /-- NaNs compare with nothing, whatever sign they have. -/
  | nan (negative negative' : Bool) : IsOpposite (nan negative) (nan negative')

variable {x x' y y' z : Double} {a b : Float}

theorem lt_iff_unpack {ha : a.isNaN = false} {hb : b.isNaN = false} :
    number a ha < number b hb ↔ a.toModel.unpack.lt b.toModel.unpack = true := decide_eq_true_iff

theorem lt_iff_rank {ha : a.isNaN = false} {hb : b.isNaN = false} :
    number a ha < number b hb ↔ (number a ha).rank < (number b hb).rank := by
  have hle : b.toModel.unpack.le a.toModel.unpack = true ↔
      (number b hb).rank ≤ (number a ha).rank :=
    Solids.le_iff_rank (unpack_ne_notANumber hb) (unpack_ne_notANumber ha)
  rw [lt_iff_unpack, lt_eq_not_le (unpack_ne_notANumber ha) (unpack_ne_notANumber hb), ← not_le,
    ← hle, Bool.not_eq_true', Bool.not_eq_true]

protected theorem lt_irrefl (x : Double) : ¬ x < x := by
  cases x with
  | nan negative => exact not_nan_lt negative _
  | number a ha => exact lt_iff_rank.not.mpr (lt_irrefl _)

protected theorem lt_trans (hxy : x < y) (hyz : y < z) : x < z := by
  cases x with
  | nan negative => exact absurd hxy (not_nan_lt negative y)
  | number a ha =>
    cases y with
    | nan negative => exact absurd hyz (not_nan_lt negative z)
    | number b hb =>
      cases z with
      | nan negative => exact absurd hyz (not_lt_nan negative _)
      | number c hc => exact lt_iff_rank.mpr ((lt_iff_rank.mp hxy).trans (lt_iff_rank.mp hyz))

theorem isNaN_zero : (0.0 : Float).isNaN = false := rfl

theorem zero_eq : (0 : Double) = number 0.0 isNaN_zero := by
  show ofFloat 0.0 = _
  exact dif_pos _

/-- A number that is below or above zero is not a zero of either sign. -/
theorem unpack_ne_zero {ha : a.isNaN = false} (h : number a ha < 0 ∨ 0 < number a ha) (s : Sign) :
    a.toModel.unpack ≠ .zero s := by
  intro hzero
  rw [zero_eq, lt_iff_unpack, lt_iff_unpack, hzero] at h
  rcases h with h | h <;> cases h

namespace IsOpposite

theorem outcome (h : OppositeSign a.toModel.unpack b.toModel.unpack) :
    IsOpposite (Double.outcome a) (Double.outcome b) := by
  have hnan : a.isNaN = b.isNaN := h.isNaN_eq
  by_cases ha : a.isNaN = false
  · have hb : b.isNaN = false := hnan ▸ ha
    rw [Double.outcome, Double.outcome, dif_pos ha, dif_pos hb]
    exact number ha hb h
  · have hb : ¬ b.isNaN = false := hnan ▸ ha
    rw [Double.outcome, Double.outcome, dif_neg ha, dif_neg hb]
    exact nan true true

theorem neg (x : Double) : IsOpposite x (-x) := by
  cases x with
  | nan negative => exact nan negative (!negative)
  | number a ha =>
    have hneg : -(Double.number a ha) = .number (-a) ((isNaN_neg a).trans ha) := dif_pos _
    rw [hneg]
    refine number ha _ ?_
    rw [unpack_neg]
    exact OppositeSign.neg _

theorem symm (h : IsOpposite x y) : IsOpposite y x := by
  cases h with
  | number ha hb h => exact number hb ha h.symm
  | nan negative negative' => exact nan negative' negative

/-- An operation that turns round with both values. -/
theorem binary {operation : Float → Float → Float}
    (hop : ∀ {a a' b b' : Float}, OppositeSign a.toModel.unpack a'.toModel.unpack →
      OppositeSign b.toModel.unpack b'.toModel.unpack →
      OppositeSign (operation a b).toModel.unpack (operation a' b').toModel.unpack)
    (hx : IsOpposite x x') (hy : IsOpposite y y') :
    IsOpposite (Double.binary operation x y) (Double.binary operation x' y') := by
  cases hx with
  | nan negative negative' => exact nan negative negative'
  | number ha ha' hx =>
    cases hy with
    | nan negative negative' => exact nan negative negative'
    | number hb hb' hy => exact outcome (hop hx hy)

theorem add (hx : IsOpposite x x') (hy : IsOpposite y y') : IsOpposite (x + y) (x' + y') :=
  binary (fun ha hb => (ha.add hb).unpack_pack) hx hy

theorem sub (hx : IsOpposite x x') (hy : IsOpposite y y') : IsOpposite (x - y) (x' - y') :=
  binary (fun ha hb => (ha.sub hb).unpack_pack) hx hy

theorem sub_swap (x y : Double) : IsOpposite (x - y) (y - x) := by
  cases x with
  | nan negative => cases y <;> exact nan _ _
  | number a ha =>
    cases y with
    | nan negative => exact nan negative negative
    | number b hb => exact outcome (OppositeSign.sub_swap _ _).unpack_pack

theorem mul (hx : IsOpposite x x') (y : Double) : IsOpposite (x * y) (x' * y) := by
  cases hx with
  | nan negative negative' => exact nan negative negative'
  | number ha ha' hx =>
    cases y with
    | nan negative => exact nan negative negative
    | number b hb => exact outcome (hx.mul _).unpack_pack

theorem lt_iff (hx : IsOpposite x x') (hy : IsOpposite y y') : x' < y' ↔ y < x := by
  cases hx with
  | nan negative negative' => simp
  | number ha ha' hx =>
    cases hy with
    | nan negative negative' => simp
    | number hb hb' hy => rw [lt_iff_unpack, lt_iff_unpack, hx.lt_eq hy]

theorem zero : IsOpposite 0 0 := by
  rw [zero_eq]
  exact number _ _ (.zero .positive .positive)

/-- The quotient of two numbers that both turn round, neither of them being zero. -/
theorem div_eq (hx : IsOpposite x x') (hy : IsOpposite y y') (hx0 : x < 0 ∨ 0 < x)
    (hy0 : y < 0 ∨ 0 < y) : x' / y' = x / y := by
  cases hx with
  | nan negative negative' => simp at hx0
  | number ha ha' hx =>
    cases hy with
    | nan negative negative' => simp at hy0
    | number hb hb' hy =>
      have hquotient := hx.div_eq hy (unpack_ne_zero hx0) (unpack_ne_zero hy0)
      exact congrArg (fun u => Double.outcome (.ofModel (.pack u))) hquotient

end IsOpposite

theorem hasOpposites : Scalar.HasOpposites IsOpposite where
  neg := .neg
  symm := .symm
  zero := .zero
  add := .add
  sub := .sub
  mul y hx := hx.mul y
  lt_iff hx hy := hx.lt_iff hy
  div_eq := by
    intro x y c d d' hx hd hc hd'
    have hswap := IsOpposite.sub_swap x y
    have hzero := IsOpposite.zero
    rw [← hzero.lt_iff hswap, ← hswap.lt_iff hzero, or_comm] at hx
    exact hc.div_eq hd' hx hd
  lt_irrefl := Double.lt_irrefl
  lt_trans := Double.lt_trans
  epsilon_pos := by decide +kernel

end Double

/-! ### The program's cuts -/

namespace Plane

/-- **A plane that is turned over exchanges the pieces of a cut.** In any arithmetic in which
negation is exact, however it rounds, a polygon in front of the plane is behind it then and the
other way round. The pieces in front become those behind, with the same corners and the same
crossings, and so do those on the plane that face its front, unless the polygon is on the plane and
its own plane stands upright on it. The same is true of doubles, although their zeros have signs. A
face on the plane whose own plane does not compare is among those that face its back either way. -/
theorem flip_exchanges_pieces :
    (∀ (K : Type) [Scalar K], Scalar.NegationIsExact K →
      ∀ (eps : K) (p : Plane K) (q : Polygon K), 0 < eps →
        p.flip.sideOfPolygon eps q = (p.sideOfPolygon eps q).flip ∧
        (p.flip.split eps q = (p.split eps q).exchange ↔
          p.sideOfPolygon eps q ≠ .on ∨ p.normal.dot q.plane.normal ≠ 0)) ∧
    (∀ (eps : Double) (p : Plane Double) (q : Polygon Double), 0 < eps →
      p.flip.sideOfPolygon eps q = (p.sideOfPolygon eps q).flip ∧
      (p.flip.split eps q = (p.split eps q).exchange ↔
        p.sideOfPolygon eps q ≠ .on ∨ p.normal.dot q.plane.normal < 0 ∨
          0 < p.normal.dot q.plane.normal)) := by
  refine ⟨?exact, ?doubles⟩
  case exact =>
    intro K _ hneg eps p q heps
    have h := hneg.hasOpposites
    rw [hneg.ne_zero_iff]
    exact ⟨h.sideOfPolygon_flip (h.not_lt_neg heps) q, h.split_flip_iff heps p q⟩
  case doubles =>
    intro eps p q heps
    have h := Double.hasOpposites
    exact ⟨h.sideOfPolygon_flip (h.not_lt_neg heps) q, h.split_flip_iff heps p q⟩

/-- A triangle with a corner on either side of the plane through the origin. -/
def wedge {K : Type} [Scalar K] : Polygon K :=
  ⟨[⟨⟨-1, 0, 0⟩, 0⟩, ⟨⟨1, 0, 0⟩, 0⟩, ⟨⟨0, 1, 0⟩, 0⟩], ⟨Vec3.unitZ, 0⟩⟩

/-- A triangle on that plane that was kept with a plane across it. -/
def upright {K : Type} [Scalar K] : Polygon K :=
  ⟨[⟨⟨0, 0, 0⟩, 0⟩, ⟨⟨0, 1, 0⟩, 0⟩, ⟨⟨0, 0, 1⟩, 0⟩], ⟨Vec3.unitY, 0⟩⟩

/-- The wedge is cut, by real numbers and by doubles, and its pieces are exchanged. The upright
triangle is taken for one that faces the back either way. -/
theorem flip_exchanges_pieces_wedge :
    ∃ (p : Plane ℝ) (p' : Plane Double), p = ⟨Vec3.unitX, 0⟩ ∧ p' = ⟨Vec3.unitX, 0⟩ ∧
      Scalar.NegationIsExact ℝ ∧ (0 : ℝ) < Scalar.half ∧ (0 : Double) < Scalar.half ∧
      p.sideOfPolygon Scalar.half wedge = .across ∧
      p.flip.split Scalar.half wedge = (p.split Scalar.half wedge).exchange ∧
      p'.sideOfPolygon Scalar.half wedge = .across ∧
      p'.flip.split Scalar.half wedge = (p'.split Scalar.half wedge).exchange ∧
      p.sideOfPolygon Scalar.half upright = .on ∧
      p.flip.split Scalar.half upright ≠ (p.split Scalar.half upright).exchange := by
  obtain ⟨hexact, hdoubles⟩ := flip_exchanges_pieces
  have hreal := hexact ℝ Scalar.negationIsExact_real Scalar.half ⟨Vec3.unitX, 0⟩
  have hhalf : (0 : ℝ) < Scalar.half := by norm_num
  have hhalf' : (0 : Double) < Scalar.half := by decide +kernel
  have hacross : (⟨Vec3.unitX, 0⟩ : Plane ℝ).sideOfPolygon Scalar.half wedge = .across := by
    norm_num [sideOfPolygon, sideOfAll, sideOf, signedDistance, wedge, Vec3.dot, Vec3.unitX,
      Side.join]
  have hacross' : (⟨Vec3.unitX, 0⟩ : Plane Double).sideOfPolygon Scalar.half wedge = .across := by
    decide +kernel
  have hon : (⟨Vec3.unitX, 0⟩ : Plane ℝ).sideOfPolygon Scalar.half upright = .on := by
    norm_num [sideOfPolygon, sideOfAll, sideOf, signedDistance, upright, Vec3.dot, Vec3.unitX]
  refine ⟨_, _, rfl, rfl, Scalar.negationIsExact_real, hhalf, hhalf', hacross, ?_, hacross', ?_,
    hon, ?_⟩
  · exact (hreal wedge hhalf).2.mpr (.inl (by rw [hacross]; decide))
  · exact (hdoubles _ _ wedge hhalf').2.mpr (.inl (by rw [hacross']; decide))
  · rw [ne_eq, (hreal upright hhalf).2, hon]
    simp [upright, Vec3.dot, Vec3.unitX, Vec3.unitY]

end Plane

end Solids
