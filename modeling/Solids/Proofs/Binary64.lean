import Mathlib
import Solids.Decimal
/-!
# Solids.Proofs.Binary64

**Doubles as rational numbers.** The logic has a model of doubles: 64 bits, and operations that
decode them, compute with a sign, a mantissa and an exponent, round, and encode the result. The
library reads the same bits with `Reading.ofFloat`. Here the two are shown to agree, and with that
what becomes of an integer that is made a double.

Main definitions:

* `Magnitude.toRat`, `Reading.toRat` — the rational number that a double is.

Main statements:

* `Reading.ofFloat_eq` — `Reading.ofFloat` decodes the bits as the model of doubles does;
* `Reading.exists_ofFloat_toFloat` — an integer below `2 ^ 53` is not changed by rounding, and a
  larger one is rounded to one that is not below `2 ^ 53`;
* `Reading.toRat_pos_iff` — a finite double is above zero when its rational number is.

Only finite doubles with 53 digits are encoded and decoded again here. All positive integers are
rounded to such numbers.
-/

namespace Solids

open Float.Model (Format UnpackedFloat)
open Float.Model.UnpackedFloat

/-! ### Rational numbers -/

namespace Magnitude

/-- The number itself. -/
def toRat (m : Magnitude) : ℚ := m.significand * 2 ^ m.exponent

theorem toRat_nonneg (m : Magnitude) : 0 ≤ m.toRat := by
  unfold toRat
  positivity

theorem toRat_pos_iff (m : Magnitude) : 0 < m.toRat ↔ 0 < m.significand := by
  have hpow : (0 : ℚ) < 2 ^ m.exponent := by positivity
  rw [toRat, mul_pos_iff_of_pos_right hpow, Nat.cast_pos]

theorem natural?_eq_some_iff (m : Magnitude) (k : ℕ) : m.natural? = some k ↔ m.toRat = k := by
  obtain ⟨significand, exponent⟩ := m
  simp only [natural?, toRat, Nat.pow_eq]
  rcases le_total 0 exponent with hexponent | hexponent
  · obtain ⟨up, rfl⟩ := Int.eq_ofNat_of_zero_le hexponent
    simp only [Int.toNat_neg_natCast, pow_zero, Nat.mod_one, if_true, Nat.div_one,
      Int.toNat_natCast, Option.some.injEq, zpow_natCast]
    exact_mod_cast Iff.rfl
  · obtain ⟨down, hdown⟩ := Int.eq_ofNat_of_zero_le (neg_nonneg.mpr hexponent)
    obtain rfl : exponent = -down := by omega
    have hpow : (0 : ℕ) < 2 ^ down := Nat.two_pow_pos down
    have hcast : (significand : ℚ) * 2 ^ (-down : ℤ) = k ↔ significand = k * 2 ^ down := by
      rw [zpow_neg, zpow_natCast, ← div_eq_mul_inv, div_eq_iff (by positivity)]
      exact_mod_cast Iff.rfl
    rw [hcast]
    simp only [neg_neg, Int.toNat_natCast, Int.toNat_neg_natCast, pow_zero, mul_one]
    split
    · next hmod =>
      have hdvd := Nat.dvd_of_mod_eq_zero hmod
      rw [Option.some.injEq, Nat.div_eq_iff_eq_mul_left hpow hdvd]
    · next hmod =>
      refine iff_of_false (by simp) fun heq => hmod ?_
      rw [heq, Nat.mul_mod_left]

end Magnitude

namespace Reading

/-- The reading is a number, and no infinity. -/
def isFinite : Reading → Bool
  | .finite .. => true
  | _ => false

/-- The number that is read, and zero where there is none. -/
def toRat : Reading → ℚ
  | .finite negative m => if negative then -m.toRat else m.toRat
  | _ => 0

theorem natural?_eq_some_iff {x : Reading} (h : x.isFinite = true) (k : ℕ) :
    x.natural? = some k ↔ x.toRat = k := by
  cases x with
  | nan negative => cases h
  | infinite negative => cases h
  | finite negative m =>
    have hnonneg := m.toRat_nonneg
    have hpos := m.toRat_pos_iff
    cases negative with
    | false => simp [natural?, toRat, m.natural?_eq_some_iff k]
    | true =>
      rcases Nat.eq_zero_or_pos m.significand with hzero | hsignificand
      · have hrat : m.toRat = 0 := by simp [Magnitude.toRat, hzero]
        simp [natural?, toRat, m.natural?_eq_some_iff k, hzero, hrat]
      · have hk : (0 : ℚ) ≤ k := k.cast_nonneg
        have hne : -m.toRat ≠ k := by linarith [hpos.mpr hsignificand]
        simp [natural?, toRat, hsignificand.ne', hne]

end Reading

/-! ### Decoding -/

/-- Whether a sign is that of negative numbers. -/
def isNegative : Sign → Bool
  | .negative => true
  | .positive => false

theorem neg_neg_sign (s : Sign) : - -s = s := by cases s <;> rfl

/-- The other way round, exponents and digits compare in the opposite order. -/
theorem swap_compare_then (e e' : ℤ) (m m' : ℕ) :
    ((compare e e').then (compare m m')).swap = (compare e' e).then (compare m' m) := by
  rw [Ordering.swap_then, ← Std.OrientedOrd.eq_swap, ← Std.OrientedOrd.eq_swap]

section Fields

variable (b : BitVec Format.binary64.numBits)

theorem toNat_unpackMantissa : (unpackMantissa b).toNat = b.toNat % 2 ^ 52 := by
  simp [unpackMantissa]

theorem toNat_unpackExponent : (unpackExponent b).toNat = b.toNat / 2 ^ 52 % 2 ^ 11 := by
  simp [unpackExponent, Nat.shiftRight_eq_div_pow]

theorem toNat_unpackSign : (unpackSign b).toNat = b.toNat / 2 ^ 63 % 2 := by
  simp [unpackSign, Nat.shiftRight_eq_div_pow]

theorem isNegative_ofBitVec (v : BitVec 1) : isNegative (.ofBitVec v) = (v.toNat == 1) := by
  revert v
  decide

end Fields

namespace Reading

/-- What a decoded double stands for. -/
def ofUnpacked : UnpackedFloat → Reading
  | .notANumber => .nan false
  | .infinity sign => .infinite (isNegative sign)
  | .zero sign => .finite (isNegative sign) ⟨0, -1074⟩
  | .finite sign mantissa exponent _ => .finite (isNegative sign) ⟨mantissa, exponent⟩

theorem ofBits_toNat {b : BitVec Format.binary64.numBits} (h : Format.binary64.Valid b) :
    ofBits b.toNat = ofUnpacked (unpack Format.binary64 b) := by
  have hsign := isNegative_ofBitVec (unpackSign b)
  rw [toNat_unpackSign] at hsign
  have hm := toNat_unpackMantissa b
  have he := toNat_unpackExponent b
  have hm0 : unpackMantissa b = 0#_ ↔ b.toNat % 2 ^ 52 = 0 := by
    rw [← hm, ← BitVec.toNat_inj]
    rfl
  have he0 : unpackExponent b = 0#_ ↔ b.toNat / 2 ^ 52 % 2 ^ 11 = 0 := by
    rw [← he, ← BitVec.toNat_inj]
    rfl
  have he1 : unpackExponent b = -1#_ ↔ b.toNat / 2 ^ 52 % 2 ^ 11 = 2047 := by
    rw [← he, ← BitVec.toNat_inj]
    rfl
  unfold ofBits unpack
  simp only [Nat.pow_eq, ← hsign, hm0, he0, he1]
  split
  · next hinf =>
    split
    · rfl
    · next hfraction =>
      -- there is only one NaN, the one without a sign
      have hnan := h.eq_packedNaN (he1.mpr hinf) (hm0.not.mpr hfraction)
      subst hnan
      rfl
  · split
    · next hzero =>
      split
      · next hfraction =>
        rw [hfraction]
        rfl
      · simp only [ofUnpacked, hm, he, hzero]
        rfl
    · simp only [ofUnpacked, he, BitVec.toNat_append, hm]
      congr 2
      rw [Nat.or_comm, BitVec.toNat_one (by decide), Nat.one_shiftLeft,
        Nat.or_two_pow_eq_add_of_lt (Nat.mod_lt _ (by decide)), Nat.add_comm]

/-- A double is read as it is decoded. -/
theorem ofFloat_eq (x : Float) : ofFloat x = ofUnpacked x.toModel.unpack :=
  ofBits_toNat x.toModel.valid

theorem isFinite_ofFloat (x : Float) : (ofFloat x).isFinite = x.isFinite := by
  change _ = x.toModel.unpack.isFinite
  rw [ofFloat_eq]
  cases x.toModel.unpack <;> rfl

/-- A finite double is above zero when it stands for such a number. -/
theorem toRat_pos_iff {x : Float} (h : x.isFinite = true) : 0 < (ofFloat x).toRat ↔ 0.0 < x := by
  have hlt : 0.0 < x ↔ (Float.toModel 0.0).unpack.lt x.toModel.unpack = true := decide_eq_true_iff
  change x.toModel.unpack.isFinite = true at h
  rw [ofFloat_eq, hlt, show (Float.toModel 0.0).unpack = .zero .positive from rfl]
  generalize x.toModel.unpack = u at h
  cases u with
  | notANumber => cases h
  | infinity sign => cases h
  | zero sign => cases sign <;> simp [ofUnpacked, toRat, Magnitude.toRat] <;> rfl
  | finite sign mantissa exponent hm =>
    have hpos := (Magnitude.mk mantissa exponent).toRat_pos_iff.mpr hm
    cases sign with
    | positive => exact iff_of_true hpos rfl
    | negative => exact iff_of_false (not_lt.mpr (neg_nonpos.mpr hpos.le)) nofun

end Reading

/-! ### Encoding -/

namespace Reading

/-- The fields of a finite double that is not one of the smallest. -/
theorem ofBits_fields (sign : Sign) {biased fraction : ℕ} (hlower : 0 < biased)
    (hupper : biased < 2047) (hfraction : fraction < 2 ^ 52) :
    ofBits ((sign.toBitVec.toNat * 2 ^ 11 + biased) * 2 ^ 52 + fraction) =
      .finite (isNegative sign) ⟨2 ^ 52 + fraction, biased - 1075⟩ := by
  have hsign : sign.toBitVec.toNat = (isNegative sign).toNat := by cases sign <;> rfl
  have hbit : (isNegative sign).toNat < 2 := Bool.toNat_lt _
  set bits := (sign.toBitVec.toNat * 2 ^ 11 + biased) * 2 ^ 52 + fraction with hbits
  have hexponent : bits / 2 ^ 52 % 2 ^ 11 = biased := by omega
  have hrest : bits % 2 ^ 52 = fraction := by omega
  have htop : bits / 2 ^ 63 % 2 = (isNegative sign).toNat := by omega
  unfold ofBits
  simp only [Nat.pow_eq, hexponent, hrest, htop]
  rw [if_neg hupper.ne, if_neg hlower.ne']
  cases isNegative sign <;> rfl

variable {sign : Sign} {mantissa : ℕ} {exponent : ℤ}

/-- A number with 53 digits is read back from its bits. -/
theorem ofBits_pack (hpos : 0 < mantissa) (hlower : 2 ^ 52 ≤ mantissa) (hupper : mantissa < 2 ^ 53)
    (hleast : -1074 ≤ exponent) (hmost : exponent ≤ 971) :
    ofBits (pack Format.binary64 (.finite sign mantissa exponent hpos)).toNat =
      .finite (isNegative sign) ⟨mantissa, exponent⟩ := by
  have hlog : mantissa.log2 = 52 := (Nat.log2_eq_iff hpos.ne').mpr ⟨hlower, hupper⟩
  have hbias : ((Format.binary64.exponentBias : ℕ) : ℤ) = 1023 := rfl
  obtain ⟨biased, hbiased⟩ : ∃ biased : ℕ, exponent = biased - 1075 :=
    ⟨(exponent + 1075).toNat, by omega⟩
  have hfield : (exponent + (Format.binary64.exponentBias : ℕ) + (52 : ℕ)).toNat = biased := by
    omega
  have hbits : (pack Format.binary64 (.finite sign mantissa exponent hpos)).toNat =
      (sign.toBitVec.toNat * 2 ^ 11 + biased) * 2 ^ 52 + mantissa % 2 ^ 52 := by
    unfold pack
    simp only [hfield]
    rw [if_neg (by omega), if_pos (by rw [hlog]; rfl)]
    simp only [packComponents, BitVec.toNat_append, BitVec.toNat_ofNat]
    rw [Nat.mod_eq_of_lt (by omega), ← Nat.shiftLeft_add_eq_or_of_lt (by omega),
      ← Nat.shiftLeft_add_eq_or_of_lt (by omega), Nat.shiftLeft_eq, Nat.shiftLeft_eq]
  rw [hbits, ofBits_fields sign (by omega) (by omega) (Nat.mod_lt _ (by decide)), hbiased]
  congr 2
  omega

/-- The negative of a double with 53 digits. -/
theorem ofFloat_neg {x : Float} {negative : Bool}
    (h : ofFloat x = .finite negative ⟨mantissa, exponent⟩) (hlower : 2 ^ 52 ≤ mantissa)
    (hupper : mantissa < 2 ^ 53) (hleast : -1074 ≤ exponent) (hmost : exponent ≤ 971) :
    ofFloat (-x) = .finite (!negative) ⟨mantissa, exponent⟩ := by
  rw [ofFloat_eq] at h
  change ofFloat ⟨.pack x.toModel.unpack.neg⟩ = _
  cases hx : x.toModel.unpack with
  | notANumber => simp [hx, ofUnpacked] at h
  | infinity sign => simp [hx, ofUnpacked] at h
  | zero sign =>
    simp only [hx, ofUnpacked, Reading.finite.injEq, Magnitude.mk.injEq] at h
    omega
  | finite sign m e hpos =>
    simp only [hx, ofUnpacked, Reading.finite.injEq, Magnitude.mk.injEq] at h
    obtain ⟨rfl, rfl, rfl⟩ := h
    refine (ofBits_pack hpos hlower hupper hleast hmost).trans ?_
    cases sign <;> rfl

end Reading

/-! ### Rounding -/

theorem targetExponent_eq (mantissa : ℕ) (exponent : ℤ) :
    Format.binary64.targetExponent (Float.Model.totalExponent mantissa exponent) =
      max (mantissa.log2 + exponent - 52) (-1074) := by
  simp only [Format.targetExponent, Float.Model.totalExponent, Format.mantissaBits,
    Format.minExponent]
  omega

/-- Digits are dropped one by one. -/
theorem mantissa_shiftRight (em : ExtendedMantissa) (count : ℕ) :
    (em >>> count).mantissa = em.mantissa / 2 ^ count := by
  change (Nat.repeat ExtendedMantissa.shiftRightOne count em).mantissa = _
  induction count with
  | zero => simp [Nat.repeat]
  | succ count ih =>
    rw [Nat.repeat, Nat.pow_succ, ← Nat.div_div_eq_div_mul, ← ih]
    rfl

theorem roundedMantissa_bounds (em : ExtendedMantissa) :
    em.mantissa ≤ em.roundedMantissa ∧ em.roundedMantissa ≤ em.mantissa + 1 := by
  unfold ExtendedMantissa.roundedMantissa Accuracy.roundToNearestEven
  split <;> omega

/-- A number with 53 digits needs no rounding. -/
theorem roundWithAccuracy_of_normal {sign : Sign} {mantissa : ℕ} {exponent : ℤ}
    (hpos : 0 < mantissa) (hlower : 2 ^ 52 ≤ mantissa) (hupper : mantissa < 2 ^ 53)
    (hleast : -1074 ≤ exponent) :
    roundWithAccuracy Format.binary64 sign mantissa exponent .exact =
      .finite sign mantissa exponent hpos := by
  have hlog : mantissa.log2 = 52 := (Nat.log2_eq_iff hpos.ne').mpr ⟨hlower, hupper⟩
  have hshift : shiftToTargetExponent Format.binary64 mantissa exponent .exact =
      (⟨mantissa, false, false⟩, exponent) := by
    have hamount : (max ((52 : ℕ) + exponent - 52) (-1074) - exponent).toNat = 0 := by omega
    simp only [shiftToTargetExponent, shiftToExponent, targetExponent_eq, hlog, hamount,
      Nat.cast_zero, add_zero]
    rfl
  simp [roundWithAccuracy, hshift, ExtendedMantissa.roundedMantissa, ExtendedMantissa.accuracy,
    Accuracy.roundToNearestEven, hpos.ne']

/-- The first 53 digits of a number. -/
theorem lead_bounds {n : ℕ} (h : 2 ^ 52 ≤ n) :
    2 ^ 52 ≤ n / 2 ^ (n.log2 - 52) ∧ n / 2 ^ (n.log2 - 52) < 2 ^ 53 := by
  have hne : n ≠ 0 := by omega
  have hlog : 52 ≤ n.log2 := (Nat.le_log2 hne).mpr h
  have hlower : 2 ^ 52 * 2 ^ (n.log2 - 52) ≤ n := by
    rw [← Nat.pow_add, Nat.add_sub_cancel' hlog]
    exact Nat.log2_self_le hne
  have hupper : n < 2 ^ 53 * 2 ^ (n.log2 - 52) := by
    rw [← Nat.pow_add, show 53 + (n.log2 - 52) = n.log2 + 1 by omega]
    exact Nat.lt_log2_self
  exact ⟨(Nat.le_div_iff_mul_le (Nat.two_pow_pos _)).mpr hlower,
    (Nat.div_lt_iff_lt_mul (Nat.two_pow_pos _)).mpr hupper⟩

/-- A number with zeros after it, to make 53 digits. -/
theorem padded_bounds {n : ℕ} (hpos : 0 < n) (hlt : n < 2 ^ 53) :
    2 ^ 52 ≤ n * 2 ^ (52 - n.log2) ∧ n * 2 ^ (52 - n.log2) < 2 ^ 53 := by
  have hlog : n.log2 < 53 := (Nat.log2_lt hpos.ne').mpr hlt
  have hlower : 2 ^ n.log2 * 2 ^ (52 - n.log2) = 2 ^ 52 := by
    rw [← Nat.pow_add, Nat.add_sub_cancel' (by omega)]
  have hupper : 2 ^ (n.log2 + 1) * 2 ^ (52 - n.log2) = 2 ^ 53 := by
    rw [Nat.pow_succ', Nat.mul_assoc, hlower, ← Nat.pow_succ']
  rw [← hlower, ← hupper]
  exact ⟨Nat.mul_le_mul_right _ (Nat.log2_self_le hpos.ne'),
    Nat.mul_lt_mul_of_pos_right Nat.lt_log2_self (Nat.two_pow_pos _)⟩

theorem shiftToTargetExponent_spec {mantissa : ℕ} {exponent : ℤ} (h : 2 ^ 52 ≤ mantissa)
    (hexponent : 0 ≤ exponent) :
    (shiftToTargetExponent Format.binary64 mantissa exponent .exact).1.mantissa =
        mantissa / 2 ^ (mantissa.log2 - 52) ∧
      (shiftToTargetExponent Format.binary64 mantissa exponent .exact).2 =
        exponent + (mantissa.log2 - 52 : ℕ) := by
  have hlog : 52 ≤ mantissa.log2 := (Nat.le_log2 (by omega)).mpr h
  have hamount : (max (mantissa.log2 + exponent - 52) (-1074) - exponent).toNat =
      mantissa.log2 - 52 := by omega
  simp only [shiftToTargetExponent, shiftToExponent, targetExponent_eq, hamount,
    mantissa_shiftRight]
  exact ⟨rfl, trivial⟩

/-- A number with 53 digits or more is rounded to one with 53 digits, and its last digit may move
by one more place than there are digits to drop. -/
theorem exists_roundWithAccuracy (sign : Sign) {mantissa : ℕ} {exponent : ℤ}
    (h : 2 ^ 52 ≤ mantissa) (hexponent : 0 ≤ exponent) : ∃ m e hm,
      roundWithAccuracy Format.binary64 sign mantissa exponent .exact = .finite sign m e hm ∧
        2 ^ 52 ≤ m ∧ m < 2 ^ 53 ∧ exponent + (mantissa.log2 - 52 : ℕ) ≤ e ∧
        e ≤ exponent + (mantissa.log2 - 52 : ℕ) + 1 := by
  obtain ⟨hfirst, hmoved⟩ := shiftToTargetExponent_spec h hexponent
  obtain ⟨hlower, hupper⟩ := lead_bounds h
  rw [← hfirst] at hlower hupper
  unfold roundWithAccuracy
  generalize shiftToTargetExponent Format.binary64 mantissa exponent .exact = first at *
  obtain ⟨em, e⟩ := first
  dsimp only at *
  obtain ⟨hge, hle⟩ := roundedMantissa_bounds em
  generalize em.roundedMantissa = rounded at *
  -- rounding up may have made one more digit, which a second shift drops
  have hrounded : 2 ^ 52 ≤ rounded := hlower.trans hge
  have hlog : rounded.log2 < 54 := (Nat.log2_lt (by omega)).mpr (by omega)
  have he : 0 ≤ e := by omega
  obtain ⟨hsecond, hmoved'⟩ := shiftToTargetExponent_spec hrounded he
  obtain ⟨hlower', hupper'⟩ := lead_bounds hrounded
  rw [← hsecond] at hlower' hupper'
  rw [dif_neg (by omega)]
  exact ⟨_, _, _, rfl, hlower', hupper', by omega, by omega⟩

/-! ### Integers as doubles -/

/-- An integer with at most 53 digits is not changed. -/
theorem round_of_lt {n : ℕ} (hpos : 0 < n) (hlt : n < 2 ^ 53) : ∃ hm,
    UnpackedFloat.round Format.binary64 .positive n 0 =
      .finite .positive (n * 2 ^ (52 - n.log2)) ((n.log2 : ℤ) - 52) hm := by
  have hlog : n.log2 < 53 := (Nat.log2_lt hpos.ne').mpr hlt
  have hamount : ((0 : ℤ) - max ((n.log2 : ℤ) + 0 - 52) (-1074)).toNat = 52 - n.log2 := by omega
  have hexponent : (0 : ℤ) - (52 - n.log2 : ℕ) = (n.log2 : ℤ) - 52 := by omega
  obtain ⟨hlower, hupper⟩ := padded_bounds hpos hlt
  refine ⟨by omega, ?_⟩
  simp only [UnpackedFloat.round, decreaseExponent, targetExponent_eq, hamount, hexponent,
    Nat.shiftLeft_eq]
  exact roundWithAccuracy_of_normal (by omega) hlower hupper (by omega)

/-- A longer integer is rounded to its first 53 digits. -/
theorem exists_round_of_le {n : ℕ} (hle : 2 ^ 53 ≤ n) (hlt : n < 2 ^ 64) : ∃ m e hm,
    UnpackedFloat.round Format.binary64 .positive n 0 = .finite .positive m e hm ∧
      2 ^ 52 ≤ m ∧ m < 2 ^ 53 ∧ 1 ≤ e ∧ e ≤ 12 := by
  have hlog : 53 ≤ n.log2 := (Nat.le_log2 (by omega)).mpr hle
  have hlog' : n.log2 < 64 := (Nat.log2_lt (by omega)).mpr hlt
  have hlong : 2 ^ 52 ≤ n := by omega
  have hamount : ((0 : ℤ) - max ((n.log2 : ℤ) + 0 - 52) (-1074)).toNat = 0 := by omega
  have hround : UnpackedFloat.round Format.binary64 .positive n 0 =
      roundWithAccuracy Format.binary64 .positive n 0 .exact := by
    simp only [UnpackedFloat.round, decreaseExponent, targetExponent_eq, hamount]
    rfl
  obtain ⟨m, e, hm, heq, hlower, hupper, hleast, hmost⟩ :=
    exists_roundWithAccuracy .positive hlong (le_refl (0 : ℤ))
  exact ⟨m, e, hm, hround.trans heq, hlower, hupper, by omega, by omega⟩

/-- The double of a positive integer has 53 digits. It is exact, or the last of them is not below
two. -/
theorem exists_ofUInt64 {n : UInt64} (hpos : 0 < n.toNat) : ∃ m e hm,
    UnpackedFloat.ofUInt64 Format.binary64 n = .finite .positive m e hm ∧
      2 ^ 52 ≤ m ∧ m < 2 ^ 53 ∧ -52 ≤ e ∧ e ≤ 12 ∧
      (n.toNat < 2 ^ 53 → (Magnitude.mk m e).toRat = n.toNat) ∧ (2 ^ 53 ≤ n.toNat → 1 ≤ e) := by
  have hnormalize : UnpackedFloat.ofUInt64 Format.binary64 n =
      UnpackedFloat.round Format.binary64 .positive n.toNat 0 := by
    have hcompare : compare (n.toNat : ℤ) 0 = .gt := compare_gt_iff_gt.mpr (by exact_mod_cast hpos)
    simp only [UnpackedFloat.ofUInt64, UnpackedFloat.ofNat, UnpackedFloat.ofInt,
      UnpackedFloat.normalize, hcompare]
    rfl
  rw [hnormalize]
  rcases lt_or_ge n.toNat (2 ^ 53) with hlt | hle
  · have hlog : n.toNat.log2 < 53 := (Nat.log2_lt hpos.ne').mpr hlt
    obtain ⟨hm, heq⟩ := round_of_lt hpos hlt
    obtain ⟨hlower, hupper⟩ := padded_bounds hpos hlt
    refine ⟨_, _, hm, heq, hlower, hupper, by omega, by omega, fun _ => ?_, fun h => by omega⟩
    have hpow : (2 : ℚ) ^ (52 - n.toNat.log2) * 2 ^ ((n.toNat.log2 : ℤ) - 52) = 1 := by
      rw [← zpow_natCast, ← zpow_add₀ two_ne_zero, Nat.cast_sub (by omega)]
      norm_num
    rw [Magnitude.toRat, Nat.cast_mul, Nat.cast_pow, Nat.cast_ofNat, mul_assoc, hpow, mul_one]
  · obtain ⟨m, e, hm, heq, hlower, hupper, hleast, hmost⟩ := exists_round_of_le hle n.toNat_lt
    exact ⟨m, e, hm, heq, hlower, hupper, by omega, hmost, fun h => by omega, fun _ => hleast⟩

namespace Reading

/-- A positive integer as a double, and its negative. -/
theorem exists_ofFloat_of_pos {n : UInt64} (hpos : 0 < n.toNat) : ∃ m : Magnitude,
    ofFloat n.toFloat = .finite false m ∧ ofFloat (-n.toFloat) = .finite true m ∧ 0 < m.toRat ∧
      (n.toNat < 2 ^ 53 → m.toRat = n.toNat) ∧ (2 ^ 53 ≤ n.toNat → 2 ^ 53 ≤ m.toRat) := by
  obtain ⟨m, e, hm, heq, hlower, hupper, hleast, hmost, hexact, hlong⟩ := exists_ofUInt64 hpos
  have hreading : ofFloat n.toFloat = .finite false ⟨m, e⟩ := by
    change ofBits (pack Format.binary64 (UnpackedFloat.ofUInt64 Format.binary64 n)).toNat = _
    rw [heq]
    exact ofBits_pack hm hlower hupper (by omega) (by omega)
  have hnegative := ofFloat_neg hreading hlower hupper (by omega) (by omega)
  refine ⟨⟨m, e⟩, hreading, hnegative, ?_, hexact, ?_⟩
  · exact (Magnitude.toRat_pos_iff _).mpr hm
  · intro hle
    have hm' : (2 : ℚ) ^ 52 ≤ m := by exact_mod_cast hlower
    have hpow : (2 : ℚ) ^ (1 : ℤ) ≤ 2 ^ e := zpow_le_zpow_right₀ (by norm_num) (hlong hle)
    calc (2 : ℚ) ^ 53 = 2 ^ 52 * 2 ^ (1 : ℤ) := by norm_num
      _ ≤ (m : ℚ) * 2 ^ e := by gcongr

/-- An integer below `2 ^ 53` is not changed when it is made a double, and any other one does not
get below `2 ^ 53`. -/
theorem exists_ofFloat_toFloat (n : UInt64) : ∃ m : Magnitude,
    ofFloat n.toFloat = .finite false m ∧ (n.toNat < 2 ^ 53 → m.toRat = n.toNat) ∧
      (2 ^ 53 ≤ n.toNat → 2 ^ 53 ≤ m.toRat) := by
  rcases Nat.eq_zero_or_pos n.toNat with hzero | hpos
  · obtain rfl : n = 0 := UInt64.toNat_inj.mp hzero
    refine ⟨⟨0, -1074⟩, by decide, fun _ => by simp [Magnitude.toRat], fun hle => by omega⟩
  · obtain ⟨m, hreading, -, -, hexact, hlong⟩ := exists_ofFloat_of_pos hpos
    exact ⟨m, hreading, hexact, hlong⟩

end Reading

end Solids
