import Solids.Export.Obj
import Solids.Proofs.NumberValue
/-!
# Solids.Proofs.SignedZero

**Equal doubles and equal bits.** Two finite doubles are equal when their bits are, but for the two
zeros. Zero added to a double makes a positive zero of a negative one, and changes no other, so then
the bits decide.

Main statements:

* `Double.neg_neg` — a double negated twice is what it was;
* `Double.bits_add_zero_inj` — for finite doubles, equal bits after zero is added mean equal
  numbers; `Obj.key_inj` says so of positions.
-/

namespace Solids

open Float.Model (Format UnpackedFloat)
open Float.Model.UnpackedFloat

/-! ### Decoded doubles -/

section Unpacked

variable {b : BitVec Format.binary64.numBits} {u v : UnpackedFloat}

/-- A double put together from its three fields. -/
theorem packComponents_unpack (b : BitVec Format.binary64.numBits) :
    packComponents Format.binary64 (.ofBitVec (unpackSign b)) (unpackExponent b) (unpackMantissa b)
      = b := by
  have hsign : (Sign.ofBitVec (unpackSign b)).toBitVec = unpackSign b := by
    generalize unpackSign b = sign
    revert sign
    decide
  have hexponent := (unpackExponent b).isLt
  have hmantissa := (unpackMantissa b).isLt
  have hbits : b.toNat < 2 ^ 64 := b.isLt
  refine BitVec.eq_of_toNat_eq ?_
  rw [packComponents, hsign, BitVec.toNat_append, BitVec.toNat_append,
    ← Nat.shiftLeft_add_eq_or_of_lt hexponent, ← Nat.shiftLeft_add_eq_or_of_lt hmantissa,
    Nat.shiftLeft_eq, Nat.shiftLeft_eq, toNat_unpackSign, toNat_unpackExponent,
    toNat_unpackMantissa]
  change (b.toNat / 2 ^ 63 % 2 * 2 ^ 11 + b.toNat / 2 ^ 52 % 2 ^ 11) * 2 ^ 52 + b.toNat % 2 ^ 52
    = b.toNat
  omega

section Fields

variable {sign : Sign} {mantissa : BitVec Format.binary64.mantissaBitsWithoutImplicit} {e : ℤ}

/-- A number below the smallest normal one has the exponent field zero. -/
theorem pack_of_subnormal (h : 0 < mantissa.toNat)
    (he : (e + (Format.binary64.exponentBias : ℕ) + (52 : ℕ)).toNat = 1) :
    pack Format.binary64 (.finite sign mantissa.toNat e h)
      = packComponents Format.binary64 sign 0 mantissa := by
  have hlt : mantissa.toNat < 2 ^ 52 := mantissa.isLt
  have hbits : Format.binary64.mantissaBits = 53 := rfl
  have hlog : ¬ mantissa.toNat.log2 + 1 = Format.binary64.mantissaBits := by
    have hlog := (Nat.log2_lt h.ne').mpr hlt
    omega
  unfold pack
  simp only [he]
  rw [if_neg (by decide), if_neg hlog, BitVec.ofNat_toNat, BitVec.setWidth_eq]
  rfl

/-- The leading bit of a normal number is not in its fields. -/
theorem pack_of_normal {exponent : BitVec Format.binary64.exponentBits}
    (h : 0 < (1#1 ++ mantissa).toNat)
    (he : (e + (Format.binary64.exponentBias : ℕ) + (52 : ℕ)).toNat = exponent.toNat)
    (hfinite : exponent.toNat ≠ 2047) :
    pack Format.binary64 (.finite sign (1#1 ++ mantissa).toNat e h)
      = packComponents Format.binary64 sign exponent mantissa := by
  have hlt : mantissa.toNat < 2 ^ 52 := mantissa.isLt
  have hexponent : exponent.toNat < 2 ^ 11 := exponent.isLt
  have hlead : (1#1 ++ mantissa).toNat = 2 ^ 52 + mantissa.toNat := by
    rw [BitVec.toNat_append, ← Nat.shiftLeft_add_eq_or_of_lt hlt]
    rfl
  have hlog : (1#1 ++ mantissa).toNat.log2 = 52 := by
    rw [hlead]
    exact (Nat.log2_eq_iff (by omega)).mpr ⟨by omega, by omega⟩
  have hmod : BitVec.ofNat 52 (1#1 ++ mantissa).toNat = mantissa := by
    refine BitVec.eq_of_toNat_eq ?_
    rw [BitVec.toNat_ofNat, hlead]
    omega
  unfold pack
  simp only [he]
  rw [if_neg (by omega), if_pos (by rw [hlog]; rfl), BitVec.ofNat_toNat, BitVec.setWidth_eq, hmod]

end Fields

/-- The bits of a double follow from what they are decoded to. -/
theorem pack_unpack (h : Format.binary64.Valid b) :
    pack Format.binary64 (unpack Format.binary64 b) = b := by
  have hfields := packComponents_unpack b
  simp only [unpack]
  split
  · next hlast =>
    split
    · next hnone =>
      rw [hlast, hnone] at hfields
      exact hfields
    · next hsome => exact (h.eq_packedNaN hlast hsome).symm
  · next hfinite =>
    split
    · next hzero =>
      rw [hzero] at hfields
      split
      · next hnone =>
        rw [hnone] at hfields
        exact hfields
      · next hsome =>
        refine (pack_of_subnormal _ ?_).trans hfields
        rw [hzero]
        rfl
    · next hnormal =>
      have hne : (unpackExponent b).toNat ≠ 2047 := fun h => hfinite (BitVec.eq_of_toNat_eq h)
      refine (pack_of_normal _ ?_ hne).trans hfields
      omega

theorem ofBitVec_unpackSign_packComponents {sign : Sign} {exponent mantissa} :
    Sign.ofBitVec (unpackSign (packComponents Format.binary64 sign exponent mantissa)) = sign := by
  have hsign : unpackSign (packComponents Format.binary64 sign exponent mantissa)
      = sign.toBitVec := by
    refine BitVec.eq_of_getLsbD_eq fun i hi => ?_
    obtain rfl : i = 0 := by omega
    simp only [unpackSign, packComponents, BitVec.getLsbD_cast, BitVec.getLsbD_extractLsb]
    rw [BitVec.getLsbD_append, BitVec.getLsbD_append]
    simp
  rw [hsign]
  cases sign <;> rfl

/-- The bits of the number with the other sign. -/
def otherSign (b : BitVec Format.binary64.numBits) : BitVec Format.binary64.numBits :=
  packComponents Format.binary64 (-.ofBitVec (unpackSign b)) (unpackExponent b) (unpackMantissa b)

theorem unpack_otherSign (b : BitVec Format.binary64.numBits) :
    unpack Format.binary64 (otherSign b) = (unpack Format.binary64 b).neg := by
  unfold unpack otherSign
  simp only [ofBitVec_unpackSign_packComponents, unpackExponent_packComponents,
    unpackMantissa_packComponents]
  split_ifs <;> rfl

theorem unpack_pack_neg (b : BitVec Format.binary64.numBits) :
    unpack Format.binary64 (pack Format.binary64 (unpack Format.binary64 b).neg)
      = (unpack Format.binary64 b).neg := by
  by_cases hnan : unpackExponent b = -1#_ ∧ unpackMantissa b ≠ 0#_
  · have hnone : unpack Format.binary64 b = .notANumber := by
      simp only [unpack, if_pos hnan.1, if_neg hnan.2]
    rw [hnone]
    rfl
  · have hvalid : Format.binary64.Valid (otherSign b) := by
      refine ⟨fun hexponent hmantissa => absurd ⟨?_, ?_⟩ hnan⟩
      · simpa [otherSign] using hexponent
      · simpa [otherSign] using hmantissa
    rw [← unpack_otherSign, pack_unpack hvalid]

theorem neg_neg_unpacked (u : UnpackedFloat) : u.neg.neg = u := by
  cases u <;> simp [UnpackedFloat.neg, neg_neg_sign]

/-- The number, zero being positive. -/
def unsignedZero : UnpackedFloat → UnpackedFloat
  | .zero _ => .zero .positive
  | u => u

theorem add_zero_eq (h : u.isFinite = true) :
    u.add Format.binary64 (.zero .positive) = unsignedZero u := by
  cases u with
  | notANumber => cases h
  | infinity sign => cases h
  | zero sign => cases sign <;> rfl
  | finite sign m e hm => rfl

theorem isLE_and_isLE_iff {e e' : ℤ} {m m' : ℕ} :
    ((compare e e').then (compare m m')).isLE = true ∧
      ((compare e' e).then (compare m' m)).isLE = true ↔ e = e' ∧ m = m' := by
  rw [Ordering.isLE_then_iff_or, Ordering.isLE_then_iff_or]
  simp only [Std.compare_eq_lt, Std.LawfulEqOrd.compare_eq_iff_eq, Std.isLE_compare]
  omega

/-- Negative numbers are in the opposite order of their magnitudes. -/
theorem le_negative {e e' : ℤ} {m m' : ℕ} (hm : 0 < m) (hm' : 0 < m') :
    (finite .negative m e hm).le (finite .negative m' e' hm')
      = ((compare e' e).then (compare m' m)).isLE := by
  show ((compare e e').then (compare m m')).swap.isLE = _
  rw [swap_compare_then]

theorem unpack_pack_unsignedZero (h : Format.binary64.Valid b) :
    unpack Format.binary64 (pack Format.binary64 (unsignedZero (unpack Format.binary64 b)))
      = unsignedZero (unpack Format.binary64 b) := by
  have hother : ∀ u, unsignedZero u = u ∨ unsignedZero u = .zero .positive := by
    intro u
    cases u with
    | zero sign => exact .inr rfl
    | _ => exact .inl rfl
  rcases hother (unpack Format.binary64 b) with hsame | hzero
  · rw [hsame, pack_unpack h]
  · rw [hzero]
    rfl

/-- Numbers that are no larger than each other are equal, but for the sign of zero. -/
theorem le_and_le_iff (hu : u.isFinite = true) (hv : v.isFinite = true) :
    u.le v = true ∧ v.le u = true ↔ unsignedZero u = unsignedZero v := by
  cases u with
  | notANumber => cases hu
  | infinity sign => cases hu
  | zero sign =>
    cases v with
    | notANumber => cases hv
    | infinity sign => cases hv
    | zero sign' => exact iff_of_true ⟨rfl, rfl⟩ rfl
    | finite sign' m e hm =>
      refine iff_of_false (fun h => ?_) nofun
      cases sign' <;> simp [UnpackedFloat.le, UnpackedFloat.compare] at h
  | finite sign m e hm =>
    cases v with
    | notANumber => cases hv
    | infinity sign => cases hv
    | zero sign' =>
      refine iff_of_false (fun h => ?_) nofun
      cases sign <;> simp [UnpackedFloat.le, UnpackedFloat.compare] at h
    | finite sign' m' e' hm' =>
      have hfinite : ∀ s : Sign, unsignedZero (.finite s m e hm)
          = unsignedZero (.finite s m' e' hm') ↔ e = e' ∧ m = m' := by
        simp [unsignedZero, and_comm]
      cases sign <;> cases sign'
      · rw [le_negative, le_negative, and_comm, isLE_and_isLE_iff, hfinite]
      · refine iff_of_false (fun h => ?_) (by simp [unsignedZero])
        simp [UnpackedFloat.le, UnpackedFloat.compare] at h
      · refine iff_of_false (fun h => ?_) (by simp [unsignedZero])
        simp [UnpackedFloat.le, UnpackedFloat.compare] at h
      · rw [hfinite, ← isLE_and_isLE_iff]
        rfl

end Unpacked

/-! ### Doubles -/

namespace Double

variable {x y : Double}

theorem unpack_neg (a : Float) : (-a).toModel.unpack = a.toModel.unpack.neg :=
  unpack_pack_neg a.toModel.toBits.toBitVec

theorem float_neg_neg (a : Float) : - -a = a := by
  have hmodel : (- -a).toModel = a.toModel := by
    show Float.Model.pack (-a).toModel.unpack.neg = a.toModel
    rw [unpack_neg, neg_neg_unpacked]
    cases h : a.toModel with
    | mk bits valid =>
      simp only [Float.Model.pack, Float.Model.unpack, Float.Model.mk.injEq]
      exact congrArg UInt64.ofBitVec (pack_unpack valid)
  cases a
  exact congrArg Float.ofModel hmodel

theorem isNaN_neg (a : Float) : (-a).isNaN = a.isNaN := by
  show (-a).toModel.unpack.isNaN = a.toModel.unpack.isNaN
  rw [unpack_neg]
  cases a.toModel.unpack <;> rfl

/-- Negating a double twice gives it back, a NaN with its sign too. -/
protected theorem neg_neg (x : Double) : - -x = x := by
  cases x with
  | nan negative => simp
  | number a ha =>
    have hneg : -(number a ha) = number (-a) ((isNaN_neg a).trans ha) := dif_pos _
    rw [hneg]
    refine (dif_pos ((isNaN_neg (-a)).trans ((isNaN_neg a).trans ha))).trans ?_
    simp only [float_neg_neg]

theorem toModel_add_zero {a : Float} (h : a.isFinite = true) :
    (a + 0.0).toModel = .pack (unsignedZero a.toModel.unpack) :=
  congrArg Float.Model.pack (add_zero_eq h)

theorem unpack_add_zero {a : Float} (h : a.isFinite = true) :
    (a + 0.0).toModel.unpack = unsignedZero a.toModel.unpack := by
  rw [toModel_add_zero h]
  exact unpack_pack_unsignedZero a.toModel.valid

theorem bits_add_zero {a : Float} (ha : a.isNaN = false) (h : a.isFinite = true) :
    (number a ha + 0).bits = (a + 0.0).toBits := by
  have hfinite : (a + 0.0).isFinite = true := by
    show (a + 0.0).toModel.unpack.isFinite = true
    rw [unpack_add_zero h]
    change a.toModel.unpack.isFinite = true at h
    cases hu : a.toModel.unpack <;> rw [hu] at h <;> first | rfl | cases h
  have hzero : (0 : Double) = number 0.0 rfl := by
    show ofFloat 0.0 = _
    exact dif_pos _
  have hsum : number a ha + 0 = number (a + 0.0) (isNaN_of_isFinite hfinite) := by
    rw [hzero]
    exact dif_pos (isNaN_of_isFinite hfinite)
  rw [hsum]
  rfl

theorem le_iff_unpack {a b : Float} {ha : a.isNaN = false} {hb : b.isNaN = false} :
    number a ha ≤ number b hb ↔ a.toModel.unpack.le b.toModel.unpack = true := decide_eq_true_iff

/-- **Equal bits mean equal numbers**, once zero is added to both. -/
theorem bits_add_zero_inj (hx : x.isFinite = true) (hy : y.isFinite = true) :
    (x + 0).bits = (y + 0).bits ↔ Scalar.same x y = true := by
  cases x with
  | nan negative => cases hx
  | number a ha =>
    cases y with
    | nan negative => cases hy
    | number b hb =>
      have hx : a.isFinite = true := hx
      have hy : b.isFinite = true := hy
      rw [Scalar.same, Bool.and_eq_true, decide_eq_true_iff, decide_eq_true_iff, le_iff_unpack,
        le_iff_unpack, le_and_le_iff hx hy, bits_add_zero ha hx, bits_add_zero hb hy]
      constructor
      · intro h
        rw [← unpack_add_zero hx, ← unpack_add_zero hy]
        exact congrArg (fun bits : UInt64 => unpack Format.binary64 bits.toBitVec) h
      · intro h
        show (a + 0.0).toModel.toBits = (b + 0.0).toModel.toBits
        rw [toModel_add_zero hx, toModel_add_zero hy, h]

end Double

/-! ### Positions -/

namespace Obj

/-- Two positions have the same coordinates. -/
def SamePosition (p q : Vec3 Double) : Prop :=
  Scalar.same p.x q.x = true ∧ Scalar.same p.y q.y = true ∧ Scalar.same p.z q.z = true

/-- **Positions with the same key are the same**, if no coordinate is infinite or a NaN. -/
theorem key_inj {p q : Vec3 Double} (hp : ∀ x ∈ p.toList, x.isFinite = true)
    (hq : ∀ x ∈ q.toList, x.isFinite = true) : key p = key q ↔ SamePosition p q := by
  have hmem : ∀ p : Vec3 Double, p.x ∈ p.toList ∧ p.y ∈ p.toList ∧ p.z ∈ p.toList :=
    fun p => by simp [Vec3.toList]
  obtain ⟨hpx, hpy, hpz⟩ := hmem p
  obtain ⟨hqx, hqy, hqz⟩ := hmem q
  rw [key, key, Prod.mk.injEq, Prod.mk.injEq, Double.bits_add_zero_inj (hp _ hpx) (hq _ hqx),
    Double.bits_add_zero_inj (hp _ hpy) (hq _ hqy), Double.bits_add_zero_inj (hp _ hpz) (hq _ hqz),
    SamePosition]

end Obj

end Solids
