import Solids.Proofs.LeastBox
/-!
# Solids.Proofs.WholeNumber

**Whole numbers as doubles.** Below `2 ^ 53` whole numbers are doubles, and sums, products and
comparisons of them are exact.
-/

namespace Solids

open Float.Model (Format UnpackedFloat)
open Float.Model.UnpackedFloat

/-! ### Decoded whole numbers -/

section Unpacked

variable {n m : ℕ}

/-- What a whole number below `2 ^ 53` is decoded to: its digits, with zeros after them to make
53. -/
def wholeUnpacked (n : ℕ) : UnpackedFloat :=
  if h : 0 < n then
    .finite .positive (n * 2 ^ (52 - n.log2)) ((n.log2 : ℤ) - 52)
      (Nat.mul_pos h (Nat.two_pow_pos _))
  else .zero .positive

/-- Zeros at the end are dropped without a trace. -/
theorem shiftRight_mul_two_pow (m k : ℕ) :
    (⟨m * 2 ^ k, false, false⟩ : ExtendedMantissa) >>> k = ⟨m, false, false⟩ := by
  change Nat.repeat ExtendedMantissa.shiftRightOne k _ = _
  induction k generalizing m with
  | zero => simp [Nat.repeat]
  | succ k ih =>
    rw [Nat.pow_succ', ← Nat.mul_assoc, Nat.repeat, ih]
    simp [ExtendedMantissa.shiftRightOne]

theorem log2_mul_two_pow (hpos : 0 < n) (k : ℕ) : (n * 2 ^ k).log2 = n.log2 + k := by
  refine (Nat.log2_eq_iff (Nat.mul_pos hpos (Nat.two_pow_pos k)).ne').mpr ⟨?_, ?_⟩
  · rw [Nat.pow_add]
    exact Nat.mul_le_mul_right _ (Nat.log2_self_le hpos.ne')
  · rw [Nat.add_right_comm, Nat.pow_add]
    exact Nat.mul_lt_mul_of_pos_right Nat.lt_log2_self (Nat.two_pow_pos k)

/-- Of a whole number with zeros at the end, 53 digits are kept. -/
theorem shiftToTargetExponent_whole (hpos : 0 < n) (hlt : n < 2 ^ 53) {k : ℕ}
    (hk : 52 ≤ n.log2 + k) :
    shiftToTargetExponent Format.binary64 (n * 2 ^ k) (-k) .exact =
      (⟨n * 2 ^ (52 - n.log2), false, false⟩, -((52 - n.log2 : ℕ) : ℤ)) := by
  have hlog : n.log2 < 53 := (Nat.log2_lt hpos.ne').mpr hlt
  obtain ⟨s, rfl⟩ : ∃ s, k = 52 - n.log2 + s := ⟨k - (52 - n.log2), by omega⟩
  have hamount : (max (((n.log2 + (52 - n.log2 + s) : ℕ) : ℤ) + -((52 - n.log2 + s : ℕ) : ℤ) - 52)
      (-1074) - -((52 - n.log2 + s : ℕ) : ℤ)).toNat = s := by omega
  have hexponent : -((52 - n.log2 + s : ℕ) : ℤ) + s = -((52 - n.log2 : ℕ) : ℤ) := by omega
  have hmantissa := shiftRight_mul_two_pow (n * 2 ^ (52 - n.log2)) s
  rw [Nat.mul_assoc, ← Nat.pow_add] at hmantissa
  simp only [shiftToTargetExponent, shiftToExponent, targetExponent_eq, log2_mul_two_pow hpos,
    hamount, hexponent]
  rw [← hmantissa]
  rfl

/-- A whole number is not rounded, however many zeros it comes with. -/
theorem roundWithAccuracy_whole (hpos : 0 < n) (hlt : n < 2 ^ 53) {k : ℕ} (hk : 52 ≤ n.log2 + k) :
    roundWithAccuracy Format.binary64 .positive (n * 2 ^ k) (-k) .exact = wholeUnpacked n := by
  have hlog : n.log2 < 53 := (Nat.log2_lt hpos.ne').mpr hlt
  have hne : n * 2 ^ (52 - n.log2) ≠ 0 := (Nat.mul_pos hpos (Nat.two_pow_pos _)).ne'
  have hfirst := shiftToTargetExponent_whole hpos hlt hk
  have hsecond := shiftToTargetExponent_whole hpos hlt (k := 52 - n.log2) (by omega)
  simp only [roundWithAccuracy, hfirst, ExtendedMantissa.roundedMantissa,
    ExtendedMantissa.accuracy, Accuracy.roundToNearestEven, hsecond, dif_neg hne, wholeUnpacked,
    dif_pos hpos]
  congr 1
  omega

theorem round_whole (hpos : 0 < n) (hlt : n < 2 ^ 53) (k : ℕ) :
    UnpackedFloat.round Format.binary64 .positive (n * 2 ^ k) (-k) = wholeUnpacked n := by
  have hlog : n.log2 < 53 := (Nat.log2_lt hpos.ne').mpr hlt
  set s := ((-k : ℤ) - max (((n.log2 + k : ℕ) : ℤ) + -k - 52) (-1074)).toNat with hs
  have hexponent : (-k : ℤ) - s = -((k + s : ℕ) : ℤ) := by omega
  simp only [UnpackedFloat.round, decreaseExponent, targetExponent_eq, log2_mul_two_pow hpos,
    Nat.shiftLeft_eq, ← hs, hexponent, Nat.mul_assoc, ← Nat.pow_add]
  exact roundWithAccuracy_whole hpos hlt (by omega)

/-! ### Arithmetic -/

theorem wholeUnpacked_zero : wholeUnpacked 0 = .zero .positive := rfl

theorem wholeUnpacked_of_pos (h : 0 < n) : wholeUnpacked n =
    .finite .positive (n * 2 ^ (52 - n.log2)) ((n.log2 : ℤ) - 52)
      (Nat.mul_pos h (Nat.two_pow_pos _)) :=
  dif_pos h

/-- Digits on a smaller scale: as many zeros more as the exponent is lower. -/
theorem decreaseExponent_whole (hn : n < 2 ^ 53) {k : ℕ} (hk : 52 - n.log2 ≤ k) :
    decreaseExponent (n * 2 ^ (52 - n.log2)) ((n.log2 : ℤ) - 52) (-(k : ℤ)) =
      (n * 2 ^ k, -(k : ℤ)) := by
  have hlog : n.log2 < 53 := by
    rcases Nat.eq_zero_or_pos n with rfl | hpos
    · decide
    · exact (Nat.log2_lt hpos.ne').mpr hn
  obtain ⟨s, rfl⟩ := Nat.exists_eq_add_of_le hk
  have hamount : ((n.log2 : ℤ) - 52 - -((52 - n.log2 + s : ℕ) : ℤ)).toNat = s := by omega
  simp only [decreaseExponent, hamount, Nat.shiftLeft_eq, Nat.mul_assoc, ← Nat.pow_add,
    Prod.mk.injEq, true_and]
  omega

theorem add_whole (hlt : n + m < 2 ^ 53) :
    UnpackedFloat.add Format.binary64 (wholeUnpacked n) (wholeUnpacked m) =
      wholeUnpacked (n + m) := by
  rcases Nat.eq_zero_or_pos n with rfl | hn
  · rw [Nat.zero_add, wholeUnpacked_zero]
    rcases Nat.eq_zero_or_pos m with rfl | hm
    · rfl
    · rw [wholeUnpacked_of_pos hm]
      rfl
  rcases Nat.eq_zero_or_pos m with rfl | hm
  · rw [Nat.add_zero, wholeUnpacked_zero, wholeUnpacked_of_pos hn]
    rfl
  have hlogn : n.log2 < 53 := (Nat.log2_lt hn.ne').mpr (by omega)
  have hlogm : m.log2 < 53 := (Nat.log2_lt hm.ne').mpr (by omega)
  -- the sum is made on the scale of the smaller number
  obtain ⟨k, hk, hkn, hkm⟩ : ∃ k : ℕ, min ((n.log2 : ℤ) - 52) ((m.log2 : ℤ) - 52) = -k ∧
      52 - n.log2 ≤ k ∧ 52 - m.log2 ≤ k :=
    ⟨52 - min n.log2 m.log2, by omega, by omega, by omega⟩
  have hpos : 0 < (n + m) * 2 ^ k := Nat.mul_pos (by omega) (Nat.two_pow_pos _)
  have hcompare : compare (((n + m) * 2 ^ k : ℕ) : ℤ) 0 = .gt :=
    compare_gt_iff_gt.mpr (by exact_mod_cast hpos)
  have hsum : Sign.positive.apply ((n * 2 ^ k : ℕ) : ℤ) + Sign.positive.apply ((m * 2 ^ k : ℕ) : ℤ)
      = ((n + m) * 2 ^ k : ℕ) := by
    rw [Nat.add_mul, Nat.cast_add]
    rfl
  rw [wholeUnpacked_of_pos hn, wholeUnpacked_of_pos hm]
  simp only [UnpackedFloat.add, hk, decreaseExponent_whole (by omega : n < 2 ^ 53) hkn,
    decreaseExponent_whole (by omega : m < 2 ^ 53) hkm, hsum, UnpackedFloat.normalize, hcompare]
  exact round_whole (by omega) hlt k

theorem mul_whole (hn : n < 2 ^ 53) (hm : m < 2 ^ 53) (hlt : n * m < 2 ^ 53) :
    UnpackedFloat.mul Format.binary64 (wholeUnpacked n) (wholeUnpacked m) =
      wholeUnpacked (n * m) := by
  rcases Nat.eq_zero_or_pos n with rfl | hn'
  · rw [Nat.zero_mul, wholeUnpacked_zero]
    rcases Nat.eq_zero_or_pos m with rfl | hm'
    · rfl
    · rw [wholeUnpacked_of_pos hm']
      rfl
  rcases Nat.eq_zero_or_pos m with rfl | hm'
  · rw [Nat.mul_zero, wholeUnpacked_zero, wholeUnpacked_of_pos hn']
    rfl
  have hlogn : n.log2 < 53 := (Nat.log2_lt hn'.ne').mpr hn
  have hlogm : m.log2 < 53 := (Nat.log2_lt hm'.ne').mpr hm
  have hlog : n.log2 + m.log2 ≤ (n * m).log2 := by
    refine (Nat.le_log2 (Nat.mul_pos hn' hm').ne').mpr ?_
    rw [Nat.pow_add]
    exact Nat.mul_le_mul (Nat.log2_self_le hn'.ne') (Nat.log2_self_le hm'.ne')
  have hmantissa : n * 2 ^ (52 - n.log2) * (m * 2 ^ (52 - m.log2)) =
      n * m * 2 ^ (52 - n.log2 + (52 - m.log2)) := by
    rw [Nat.pow_add]
    ring
  have hexponent : (n.log2 : ℤ) - 52 + ((m.log2 : ℤ) - 52) =
      -((52 - n.log2 + (52 - m.log2) : ℕ) : ℤ) := by omega
  rw [wholeUnpacked_of_pos hn', wholeUnpacked_of_pos hm']
  simp only [UnpackedFloat.mul, hmantissa, hexponent]
  exact roundWithAccuracy_whole (Nat.mul_pos hn' hm') hlt (by omega)

theorem lt_whole : (wholeUnpacked n).lt (wholeUnpacked m) = true ↔ n < m := by
  rcases Nat.eq_zero_or_pos m with rfl | hm
  · refine iff_of_false ?_ n.not_lt_zero
    rw [wholeUnpacked_zero]
    rcases Nat.eq_zero_or_pos n with rfl | hn
    · exact nofun
    · rw [wholeUnpacked_of_pos hn]
      exact nofun
  rcases Nat.eq_zero_or_pos n with rfl | hn
  · rw [wholeUnpacked_zero, wholeUnpacked_of_pos hm]
    exact iff_of_true rfl hm
  rw [wholeUnpacked_of_pos hn, wholeUnpacked_of_pos hm]
  show ((compare ((n.log2 : ℤ) - 52) ((m.log2 : ℤ) - 52)).then
    (compare (n * 2 ^ (52 - n.log2)) (m * 2 ^ (52 - m.log2))) == Ordering.lt) = true ↔ n < m
  rw [beq_iff_eq, Ordering.then_eq_lt, Std.compare_eq_lt, Std.LawfulEqOrd.compare_eq_iff_eq,
    Std.compare_eq_lt]
  -- the number with more digits is larger, and of two with as many digits the digits decide
  have longer {a b : ℕ} (ha : 0 < a) (hb : 0 < b) (h : a.log2 < b.log2) : a < b :=
    calc a < 2 ^ (a.log2 + 1) := Nat.lt_log2_self
      _ ≤ 2 ^ b.log2 := Nat.pow_le_pow_right (by decide) h
      _ ≤ b := Nat.log2_self_le hb.ne'
  rcases lt_trichotomy n.log2 m.log2 with hlt | heq | hgt
  · exact iff_of_true (.inl (by omega)) (longer hn hm hlt)
  · rw [heq]
    simp
  · exact iff_of_false (by omega) (longer hm hn hgt).not_gt

theorem unpack_eq_positive {x : Float} {m : Magnitude}
    (h : Reading.ofFloat x = .finite false m) (hpos : 0 < m.significand) :
    x.toModel.unpack = .finite .positive m.significand m.exponent hpos := by
  obtain ⟨sign, hsign, hunpack⟩ := Reading.unpack_eq_finite h hpos
  cases sign with
  | positive => exact hunpack
  | negative => cases hsign

/-- A whole number is decoded again from its bits. -/
theorem unpack_pack_whole (hlt : n < 2 ^ 53) :
    unpack Format.binary64 (pack Format.binary64 (wholeUnpacked n)) = wholeUnpacked n := by
  rcases Nat.eq_zero_or_pos n with rfl | hpos
  · rfl
  obtain ⟨hlower, hupper⟩ := padded_bounds hpos hlt
  have hlog : n.log2 < 53 := (Nat.log2_lt hpos.ne').mpr hlt
  have hmantissa : 0 < n * 2 ^ (52 - n.log2) := Nat.mul_pos hpos (Nat.two_pow_pos _)
  rw [wholeUnpacked_of_pos hpos]
  exact unpack_eq_positive (x := ⟨.pack (.finite .positive _ _ hmantissa)⟩)
    (Reading.ofBits_pack hmantissa hlower hupper (by omega) (by omega)) hmantissa

end Unpacked

/-! ### Doubles -/

namespace Double

variable {x y : Double} {n m : ℕ}

/-- The double nearest to an integer of 64 bits. -/
def ofInteger : ℤ → Double
  | .ofNat n => .ofFloat n.toUInt64.toFloat
  | .negSucc n => -.ofFloat (n + 1).toUInt64.toFloat

/-- The double is this whole number. -/
def IsWhole (x : Double) (n : ℕ) : Prop :=
  n < 2 ^ 53 ∧ ∃ a ha, x = .number a ha ∧ a.toModel.unpack = wholeUnpacked n

theorem isNaN_of_unpack {a : Float} (h : a.toModel.unpack = wholeUnpacked n) : a.isNaN = false := by
  change a.toModel.unpack.isNaN = false
  rw [h]
  rcases Nat.eq_zero_or_pos n with rfl | hn
  · rfl
  · rw [wholeUnpacked_of_pos hn]
    rfl

/-- The outcome of an operation is a whole number if its decoded form is. -/
theorem isWhole_outcome {u : UnpackedFloat} (hlt : n < 2 ^ 53) (h : u = wholeUnpacked n) :
    IsWhole (outcome ⟨.pack u⟩) n := by
  have hunpack : (⟨.pack u⟩ : Float).toModel.unpack = wholeUnpacked n := by
    rw [h]
    exact unpack_pack_whole hlt
  exact ⟨hlt, _, isNaN_of_unpack hunpack, dif_pos _, hunpack⟩

theorem isWhole_ofInteger (hlt : n < 2 ^ 53) : IsWhole (ofInteger n) n := by
  have hsize : n.toUInt64.toNat = n := by
    rw [Nat.toUInt64_eq, UInt64.toNat_ofNat_of_lt' (hlt.trans (by decide))]
  have hround : UnpackedFloat.ofUInt64 Format.binary64 n.toUInt64 = wholeUnpacked n := by
    simp only [UnpackedFloat.ofUInt64, UnpackedFloat.ofNat, UnpackedFloat.ofInt,
      UnpackedFloat.normalize, hsize]
    rcases Nat.eq_zero_or_pos n with rfl | hpos
    · rfl
    · have hcompare : compare (n : ℤ) 0 = .gt := compare_gt_iff_gt.mpr (by exact_mod_cast hpos)
      have hexact := round_whole hpos hlt 0
      rw [Nat.pow_zero, Nat.mul_one] at hexact
      rw [hcompare]
      exact hexact
  have hunpack : n.toUInt64.toFloat.toModel.unpack = wholeUnpacked n := by
    show unpack _ (pack _ (UnpackedFloat.ofUInt64 Format.binary64 n.toUInt64)) = _
    rw [hround, unpack_pack_whole hlt]
  exact ⟨hlt, _, isNaN_of_unpack hunpack, dif_pos _, hunpack⟩

theorem IsWhole.add (hx : IsWhole x n) (hy : IsWhole y m) (hlt : n + m < 2 ^ 53) :
    IsWhole (x + y) (n + m) := by
  obtain ⟨-, a, ha, rfl, hunpack⟩ := hx
  obtain ⟨-, b, hb, rfl, hunpack'⟩ := hy
  refine isWhole_outcome (u := UnpackedFloat.add _ a.toModel.unpack b.toModel.unpack) hlt ?_
  rw [hunpack, hunpack', add_whole hlt]

theorem IsWhole.mul (hx : IsWhole x n) (hy : IsWhole y m) (hlt : n * m < 2 ^ 53) :
    IsWhole (x * y) (n * m) := by
  obtain ⟨hn, a, ha, rfl, hunpack⟩ := hx
  obtain ⟨hm, b, hb, rfl, hunpack'⟩ := hy
  refine isWhole_outcome (u := UnpackedFloat.mul _ a.toModel.unpack b.toModel.unpack) hlt ?_
  rw [hunpack, hunpack', mul_whole hn hm hlt]

theorem IsWhole.lt_iff (hx : IsWhole x n) (hy : IsWhole y m) : x < y ↔ n < m := by
  obtain ⟨-, a, ha, rfl, hunpack⟩ := hx
  obtain ⟨-, b, hb, rfl, hunpack'⟩ := hy
  rw [← lt_whole, ← hunpack, ← hunpack']
  exact decide_eq_true_iff

/-- A whole number is below the largest double. -/
theorem IsWhole.lt_largest (hx : IsWhole x n) : x < largest := by
  obtain ⟨most, hmost, hdigits⟩ := exists_largest_eq
  have hlargest : (Scalar.largest? : Option Double) = some largest := rfl
  rw [Option.some.inj (hlargest.symm.trans hmost)]
  obtain ⟨hlt, a, ha, rfl, hunpack⟩ := hx
  obtain ⟨top, htop, -, rfl, -, hreading, -⟩ := hdigits
  show decide (a.toModel.unpack.lt top.toModel.unpack = true) = true
  rw [hunpack, unpack_eq_positive hreading (by decide), decide_eq_true_eq]
  rcases Nat.eq_zero_or_pos n with rfl | hpos
  · rfl
  · -- its exponent is lower
    have hlog : n.log2 < 53 := (Nat.log2_lt hpos.ne').mpr hlt
    have hexponent : compare ((n.log2 : ℤ) - 52) 971 = .lt := Std.compare_eq_lt.mpr (by omega)
    rw [wholeUnpacked_of_pos hpos]
    simp [UnpackedFloat.lt, UnpackedFloat.compare, hexponent]

theorem isWhole_abs_ofInteger {i : ℤ} (hlt : i.natAbs < 2 ^ 53) :
    IsWhole (Scalar.abs (ofInteger i)) i.natAbs := by
  have hzero : IsWhole 0 0 := ⟨by decide, 0.0, rfl, rfl, rfl⟩
  cases i with
  | ofNat n =>
    have hx := isWhole_ofInteger hlt
    have hnot : ¬ ofInteger n < 0 := fun h => absurd ((hx.lt_iff hzero).mp h) n.not_lt_zero
    rwa [show Scalar.abs (ofInteger (.ofNat n)) = ofInteger n from if_neg hnot]
  | negSucc n =>
    have hx : IsWhole (ofInteger (n + 1 : ℕ)) (n + 1) := isWhole_ofInteger hlt
    have hneg : -ofInteger (n + 1 : ℕ) < 0 := by
      obtain ⟨-, a, ha, heq, hunpack⟩ := hx
      rw [heq, show -number a ha = number (-a) ((isNaN_neg a).trans ha) from dif_pos _]
      show decide ((-a).toModel.unpack.lt (.zero .positive) = true) = true
      rw [unpack_neg, hunpack, wholeUnpacked_of_pos n.succ_pos]
      rfl
    have habs : Scalar.abs (ofInteger (.negSucc n)) = - -ofInteger (n + 1 : ℕ) := if_pos hneg
    rwa [habs, Double.neg_neg]

end Double

end Solids
