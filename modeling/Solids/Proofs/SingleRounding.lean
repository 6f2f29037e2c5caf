import Solids.Export.Single
import Solids.Proofs.Binary64
/-!
# Solids.Proofs.SingleRounding

**Rounding.** The quotient of two integers is rounded to the nearest integer, and a double to the
nearest number in single precision. In both cases the even one is taken of two that are equally
near.

Main definitions:

* `IsNearest` — the integer nearest to a rational number;
* `Single.reading` — what the 32 bits of single precision stand for;
* `Single.Rounds` — the number in single precision that is nearest to another one, which is an
  infinity if that one is too large.

Main statements: `isNearest_roundDiv`, `Magnitude.isNearest_roundPlaces` and `Single.rounds_bits`.
-/

namespace Solids

/-! ### Integers -/

/-- The integer is nearest to the number, and even if another one is as near. -/
structure IsNearest (x : ℚ) (n : ℕ) : Prop where
  /-- It is at most a half away. -/
  near : |x - n| ≤ 1 / 2
  /-- If it is just a half away, it is even. -/
  even : |x - n| = 1 / 2 → n % 2 = 0

section Nearest

variable {x t : ℚ} {n : ℕ}

theorem isNearest_of_below (ht : 0 ≤ t) (h : t < 1 / 2 ∨ t = 1 / 2 ∧ n % 2 = 0) :
    IsNearest (n + t) n := by
  have habs : |(n : ℚ) + t - n| = t := by rw [add_sub_cancel_left, abs_of_nonneg ht]
  rcases h with h | ⟨h, heven⟩
  · exact ⟨habs.trans_le h.le, fun heq => absurd (habs.symm.trans heq) h.ne⟩
  · exact ⟨(habs.trans h).le, fun _ => heven⟩

theorem isNearest_of_above (ht : t ≤ 1) (h : 1 / 2 < t ∨ t = 1 / 2 ∧ (n + 1) % 2 = 0) :
    IsNearest (n + t) (n + 1) := by
  have habs : |(n : ℚ) + t - (n + 1 : ℕ)| = 1 - t := by
    rw [abs_of_nonpos (by push_cast; linarith)]
    push_cast
    ring
  rcases h with h | ⟨h, heven⟩
  · exact ⟨by rw [habs]; linarith, fun heq => by rw [habs] at heq; linarith⟩
  · exact ⟨by rw [habs]; linarith, fun _ => heven⟩

/-- The quotient of two integers is rounded to the nearest one. -/
theorem isNearest_roundDiv (num : ℕ) {den : ℕ} (hden : 0 < den) :
    IsNearest (num / den) (roundDiv num den) := by
  have hpos : (0 : ℚ) < den := Nat.cast_pos.mpr hden
  have hmod : num % den < den := Nat.mod_lt num hden
  obtain ⟨floor, hfloor⟩ : ∃ floor, num / den = floor := ⟨_, rfl⟩
  obtain ⟨rest, hrest⟩ : ∃ rest, num % den = rest := ⟨_, rfl⟩
  have hnum : (num : ℚ) / den = floor + rest / den := by
    rw [div_eq_iff hpos.ne', add_mul, div_mul_cancel₀ _ hpos.ne', ← hfloor, ← hrest]
    exact_mod_cast (Nat.div_add_mod' num den).symm
  rw [hrest] at hmod
  rw [hnum, roundDiv, hfloor, hrest]
  have hnonneg : (0 : ℚ) ≤ rest / den := by positivity
  have hle : (rest : ℚ) / den ≤ 1 := by
    rw [div_le_one hpos]
    exact_mod_cast hmod.le
  by_cases hless : 2 * rest < den
  · rw [if_pos hless]
    refine isNearest_of_below hnonneg (.inl ?_)
    rw [div_lt_div_iff₀ hpos two_pos]
    exact_mod_cast (by omega : rest * 2 < 1 * den)
  by_cases hmore : den < 2 * rest
  · rw [if_neg hless, if_pos hmore]
    refine isNearest_of_above hle (.inl ?_)
    rw [div_lt_div_iff₀ two_pos hpos]
    exact_mod_cast (by omega : 1 * den < rest * 2)
  have htie : (rest : ℚ) / den = 1 / 2 := by
    rw [div_eq_div_iff hpos.ne' two_ne_zero]
    exact_mod_cast (by omega : rest * 2 = 1 * den)
  rw [if_neg hless, if_neg hmore]
  split
  · next heven => exact isNearest_of_below hnonneg (.inr ⟨htie, heven⟩)
  · next hodd => exact isNearest_of_above hle (.inr ⟨htie, by omega⟩)

theorem one_le_abs_add_abs {k : ℕ} (hne : k ≠ n) : 1 ≤ |x - k| + |x - n| := by
  have hone : (1 : ℚ) ≤ |(k : ℚ) - n| := by
    exact_mod_cast Int.one_le_abs (sub_ne_zero.mpr (Nat.cast_injective.ne hne : (k : ℤ) ≠ n))
  have hsum := abs_add_le ((k : ℚ) - x) (x - n)
  rw [sub_add_sub_cancel, abs_sub_comm (k : ℚ) x] at hsum
  exact hone.trans hsum

/-- No other integer is nearer. -/
theorem IsNearest.le (h : IsNearest x n) (k : ℕ) : |x - n| ≤ |x - k| := by
  rcases eq_or_ne k n with rfl | hne
  · exact le_refl _
  · linarith [one_le_abs_add_abs (x := x) hne, h.near]

/-- An integer is even if another one is as near. -/
theorem IsNearest.even_of_eq (h : IsNearest x n) {k : ℕ} (hne : k ≠ n) (heq : |x - k| = |x - n|) :
    n % 2 = 0 :=
  h.even (le_antisymm h.near (by linarith [one_le_abs_add_abs (x := x) hne]))

end Nearest

/-- A power of two with any exponent, as a fraction. -/
theorem zpow_eq_div (a : ℤ) : (2 : ℚ) ^ a = (2 ^ a.toNat : ℕ) / (2 ^ (-a).toNat : ℕ) := by
  rcases le_total 0 a with ha | ha
  · rw [Int.toNat_eq_zero.mpr (neg_nonpos.mpr ha)]
    obtain ⟨n, rfl⟩ := Int.eq_ofNat_of_zero_le ha
    simp
  · rw [Int.toNat_eq_zero.mpr ha]
    obtain ⟨n, hn⟩ := Int.eq_ofNat_of_zero_le (neg_nonneg.mpr ha)
    obtain rfl : a = -n := by omega
    simp

namespace Magnitude

variable {m : Magnitude} {a : ℕ} {b : ℤ}

theorem toRat_lt (hlt : m.significand < 2 ^ a) (hle : m.exponent + a ≤ b) : m.toRat < 2 ^ b := by
  have hsignificand : (m.significand : ℚ) < 2 ^ a := by exact_mod_cast hlt
  calc m.toRat < 2 ^ a * 2 ^ m.exponent := mul_lt_mul_of_pos_right hsignificand (by positivity)
    _ = 2 ^ (m.exponent + a) := by rw [zpow_add₀ two_ne_zero, zpow_natCast, mul_comm]
    _ ≤ 2 ^ b := zpow_le_zpow_right₀ one_le_two hle

theorem le_toRat (hle : 2 ^ a ≤ m.significand) (hb : b ≤ m.exponent + a) : 2 ^ b ≤ m.toRat := by
  have hsignificand : (2 : ℚ) ^ a ≤ m.significand := by exact_mod_cast hle
  calc (2 : ℚ) ^ b ≤ 2 ^ (m.exponent + a) := zpow_le_zpow_right₀ one_le_two hb
    _ = 2 ^ a * 2 ^ m.exponent := by rw [zpow_add₀ two_ne_zero, zpow_natCast, mul_comm]
    _ ≤ m.toRat := mul_le_mul_of_nonneg_right hsignificand (by positivity)

/-- Decimal places are rounded to the nearest ones. -/
theorem isNearest_roundPlaces (places : ℕ) (m : Magnitude) :
    IsNearest (m.toRat * 10 ^ places) (m.roundPlaces places) := by
  have hvalue : m.toRat * 10 ^ places
      = (m.significand * 2 ^ m.exponent.toNat * 10 ^ places : ℕ)
        / (2 ^ (-m.exponent).toNat : ℕ) := by
    rw [toRat, zpow_eq_div]
    push_cast
    ring
  rw [hvalue]
  exact isNearest_roundDiv _ (Nat.two_pow_pos _)

end Magnitude

/-! ### Single precision -/

namespace Single

/-- What the 32 bits of a number in single precision stand for: a sign, eight bits of exponent and
23 of fraction. -/
def reading (bits : ℕ) : Reading :=
  let negative := bits / 2 ^ 31 % 2 == 1
  let biased : ℕ := bits / 2 ^ 23 % 2 ^ 8
  let fraction : ℕ := bits % 2 ^ 23
  if biased = 255 then
    if fraction = 0 then .infinite negative else .nan negative
  else if biased = 0 then .finite negative ⟨fraction, -149⟩
  else .finite negative ⟨2 ^ 23 + fraction, (biased : ℤ) - 150⟩

/-- The numbers that there are in single precision, but for their sign. -/
structure IsSingle (m : Magnitude) : Prop where
  /-- There are 24 bits for the digits. -/
  significand_lt : m.significand < 2 ^ 24
  /-- The exponent is not below the least one, -/
  le_exponent : -149 ≤ m.exponent
  /-- nor above the largest one. -/
  exponent_le : m.exponent ≤ 104
  /-- The digits fill their bits, unless the exponent is the least one. -/
  normal : m.exponent = -149 ∨ 2 ^ 23 ≤ m.significand

/-- The number in single precision is nearest to another one, which is not too large. -/
structure IsRounded (m y : Magnitude) : Prop where
  /-- It is in single precision. -/
  isSingle : IsSingle y
  /-- The other one is below the middle between the largest number in single precision and the
  power of two that would come next. -/
  lt : m.toRat < 2 ^ 128 - 2 ^ 103
  /-- No other number in single precision is nearer. -/
  near : ∀ w, IsSingle w → |m.toRat - y.toRat| ≤ |m.toRat - w.toRat|
  /-- If another one is as near, the digits of this one are even. -/
  even : ∀ w, IsSingle w → w.toRat ≠ y.toRat → |m.toRat - w.toRat| = |m.toRat - y.toRat| →
    y.significand % 2 = 0

/-- A double and what becomes of it in single precision. -/
inductive Rounds : Reading → Reading → Prop where
  /-- A NaN stays one. -/
  | nan (negative : Bool) : Rounds (.nan negative) (.nan negative)
  /-- An infinity stays one. -/
  | infinite (negative : Bool) : Rounds (.infinite negative) (.infinite negative)
  /-- A number is rounded, and keeps its sign. -/
  | finite (negative : Bool) {m y : Magnitude} (h : IsRounded m y) :
      Rounds (.finite negative m) (.finite negative y)
  /-- A number that is too large becomes an infinity. -/
  | overflow (negative : Bool) {m : Magnitude} (h : 2 ^ 128 - 2 ^ 103 ≤ m.toRat) :
      Rounds (.finite negative m) (.infinite negative)

variable {m y w : Magnitude} {units : ℕ} {exponent : ℤ}

/-- A number is rounded to so many units of a power of two: 24 bits hold the units, and if there are
few of them the power is the least one. -/
structure IsScaled (m : Magnitude) (units : ℕ) (exponent : ℤ) : Prop where
  /-- The units are the nearest ones. -/
  nearest : IsNearest (m.toRat / 2 ^ exponent) units
  /-- The power is not below the least one. -/
  le_exponent : -149 ≤ exponent
  /-- The number is less than so many units. -/
  lt : m.toRat / 2 ^ exponent < 2 ^ 24
  /-- It has enough units, unless the power is the least one. -/
  le : exponent = -149 ∨ 2 ^ 23 ≤ m.toRat / 2 ^ exponent

theorem IsScaled.units_le (h : IsScaled m units exponent) : units ≤ 2 ^ 24 := by
  have hnear := (abs_le.mp h.nearest.near).1
  have hlt := h.lt
  have hunits : (units : ℚ) < 2 ^ 24 + 1 := by linarith
  exact_mod_cast Nat.lt_succ_iff.mp (by exact_mod_cast hunits)

theorem IsScaled.le_units (h : IsScaled m units exponent) :
    exponent = -149 ∨ 2 ^ 23 ≤ units := by
  refine h.le.imp_right fun hle => ?_
  have hnear := (abs_le.mp h.nearest.near).2
  have hunits : (2 ^ 23 : ℚ) < units + 1 := by linarith
  exact_mod_cast Nat.lt_succ_iff.mp (by exact_mod_cast hunits)

theorem IsScaled.toRat_eq (m : Magnitude) (exponent : ℤ) :
    m.toRat = m.toRat / 2 ^ exponent * 2 ^ exponent :=
  (div_mul_cancel₀ _ (by positivity)).symm

/-- **The nearest units make the nearest number.** -/
theorem IsScaled.isRounded (h : IsScaled m units exponent) (hy : IsSingle y)
    (hvalue : y.toRat = units * 2 ^ exponent) (hlt : m.toRat < 2 ^ 128 - 2 ^ 103)
    (heven : units % 2 = 0 → y.significand % 2 = 0) : IsRounded m y := by
  have hpow : (0 : ℚ) < 2 ^ exponent := by positivity
  have hscale : ∀ a b : ℚ, |a * 2 ^ exponent - b * 2 ^ exponent| = |a - b| * 2 ^ exponent := by
    intro a b
    rw [← sub_mul, abs_mul, abs_of_pos hpow]
  obtain ⟨x, hx⟩ : ∃ x, m.toRat / 2 ^ exponent = x := ⟨_, rfl⟩
  have hm : m.toRat = x * 2 ^ exponent := by rw [← hx, ← IsScaled.toRat_eq]
  obtain ⟨hnearest, -, -, hle⟩ := h
  rw [hx] at hnearest hle
  -- a number with a smaller exponent is below all that have enough units
  have hcompare : ∀ w, IsSingle w → (∃ k : ℕ, w.toRat = k * 2 ^ exponent) ∨
      |m.toRat - y.toRat| < |m.toRat - w.toRat| := by
    intro w hw
    rcases le_or_gt exponent w.exponent with hexponent | hexponent
    · obtain ⟨up, hup⟩ := Int.eq_ofNat_of_zero_le (sub_nonneg.mpr hexponent)
      refine .inl ⟨w.significand * 2 ^ up, ?_⟩
      obtain hw : w.exponent = up + exponent := by omega
      rw [Magnitude.toRat, hw, zpow_add₀ two_ne_zero, zpow_natCast]
      push_cast
      ring
    · refine .inr ?_
      have hle : (2 : ℚ) ^ 23 ≤ x := by
        refine hle.resolve_left ?_
        have := hw.le_exponent
        omega
      obtain ⟨v, hv⟩ : ∃ v, w.toRat = v * 2 ^ exponent := ⟨_, IsScaled.toRat_eq w exponent⟩
      have hsmall : v < 2 ^ 23 := by
        have hlt := Magnitude.toRat_lt hw.significand_lt
          (by omega : w.exponent + 24 ≤ exponent + 23)
        rw [hv, add_comm, zpow_add₀ two_ne_zero] at hlt
        exact lt_of_mul_lt_mul_right hlt hpow.le
      have hgrid : |x - units| ≤ |x - 2 ^ 23| := by exact_mod_cast hnearest.le (2 ^ 23)
      rw [hm, hvalue, hv, hscale, hscale]
      refine mul_lt_mul_of_pos_right ?_ hpow
      rw [abs_of_pos (by linarith : 0 < x - v)]
      rw [abs_of_nonneg (by linarith : 0 ≤ x - 2 ^ 23)] at hgrid
      linarith
  refine ⟨hy, hlt, fun w hw => ?_, fun w hw hne heq => heven ?_⟩
  · rcases hcompare w hw with ⟨k, hk⟩ | hless
    · rw [hm, hvalue, hk, hscale, hscale]
      exact mul_le_mul_of_nonneg_right (hnearest.le k) hpow.le
    · exact hless.le
  · rcases hcompare w hw with ⟨k, hk⟩ | hless
    · rw [hm, hvalue, hk, hscale, hscale] at heq
      refine hnearest.even_of_eq (fun hkn => hne ?_) (mul_right_cancel₀ hpow.ne' heq)
      rw [hk, hvalue, hkn]
    · exact absurd heq hless.ne'

/-- There are units for every number, and they make its bits. A zero has a small exponent. -/
theorem exists_isScaled (hzero : m.significand = 0 → m.exponent ≤ -126) :
    ∃ units exponent, IsScaled m units exponent ∧
      ofMagnitude m = min (units + (exponent + 149).toNat * 2 ^ 23) infinity := by
  set log : ℕ := m.significand.log2 with hlog
  set exponent : ℤ := max leastExponent (m.exponent + log - 23) with hexponent
  rw [leastExponent] at hexponent
  have hpow : (0 : ℚ) < 2 ^ exponent := by positivity
  refine ⟨_, exponent, ⟨?_, by omega, ?_, ?_⟩, rfl⟩
  · have hvalue : m.toRat / 2 ^ exponent
        = (m.significand * 2 ^ (m.exponent - exponent).toNat : ℕ)
          / (2 ^ (-(m.exponent - exponent)).toNat : ℕ) := by
      rw [Magnitude.toRat, mul_div_assoc, ← zpow_sub₀ two_ne_zero, zpow_eq_div]
      push_cast
      ring
    rw [hvalue]
    exact isNearest_roundDiv _ (Nat.two_pow_pos _)
  · have hlt := Magnitude.toRat_lt (Nat.lt_log2_self (n := m.significand))
      (by omega : m.exponent + (log + 1 : ℕ) ≤ 24 + exponent)
    rw [zpow_add₀ two_ne_zero] at hlt
    rw [div_lt_iff₀ hpow]
    exact_mod_cast hlt
  · rcases eq_or_ne m.significand 0 with hm | hm
    · have hlog : log = 0 := by
        rw [hlog, hm]
        rfl
      have := hzero hm
      exact .inl (by omega)
    · refine or_iff_not_imp_left.mpr fun hne => ?_
      have hle := Magnitude.le_toRat (Nat.log2_self_le hm)
        (by omega : 23 + exponent ≤ m.exponent + (log : ℕ))
      rw [zpow_add₀ two_ne_zero] at hle
      rw [le_div_iff₀ hpow]
      exact_mod_cast hle

/-- The bits reach those of infinity for the numbers that are too large. -/
theorem IsScaled.infinity_le_iff (h : IsScaled m units exponent) :
    infinity ≤ units + (exponent + 149).toNat * 2 ^ 23 ↔ 2 ^ 128 - 2 ^ 103 ≤ m.toRat := by
  have hleast := h.le_exponent
  have hunits := h.units_le
  have hpow : (0 : ℚ) < 2 ^ exponent := by positivity
  have hvalue := IsScaled.toRat_eq m exponent
  have hinfinity : infinity = 255 * 2 ^ 23 := rfl
  rcases lt_trichotomy exponent 104 with hexponent | hexponent | hexponent
  · refine iff_of_false (by omega) (not_le.mpr ?_)
    have hle : (2 : ℚ) ^ exponent ≤ 2 ^ (103 : ℤ) := zpow_le_zpow_right₀ one_le_two (by omega)
    calc m.toRat < 2 ^ 24 * 2 ^ exponent := by
          rw [hvalue]
          exact mul_lt_mul_of_pos_right h.lt hpow
      _ ≤ 2 ^ 24 * 2 ^ (103 : ℤ) := mul_le_mul_of_nonneg_left hle (by positivity)
      _ ≤ 2 ^ 128 - 2 ^ 103 := by norm_num
  · subst hexponent
    obtain ⟨x, hx⟩ : ∃ x, m.toRat / 2 ^ (104 : ℤ) = x := ⟨_, rfl⟩
    have hnearest := hx ▸ h.nearest
    have hlimit : 2 ^ 128 - 2 ^ 103 ≤ m.toRat ↔ (2 : ℚ) ^ 24 - 1 / 2 ≤ x := by
      have hlimit : (2 : ℚ) ^ 128 - 2 ^ 103 = (2 ^ 24 - 1 / 2) * 2 ^ (104 : ℤ) := by norm_num
      rw [hvalue, hx, hlimit, mul_le_mul_iff_left₀ hpow]
    rw [hlimit]
    obtain ⟨hbelow, habove⟩ := abs_le.mp hnearest.near
    constructor
    · intro hle
      obtain rfl : units = 2 ^ 24 := by omega
      push_cast at hbelow
      linarith
    · intro hle
      -- an odd number of units is nearer than by a half
      by_contra hlt
      have hcast : (units : ℚ) ≤ 2 ^ 24 - 1 := by
        have : units + 1 ≤ 2 ^ 24 := by omega
        have : (units : ℚ) + 1 ≤ 2 ^ 24 := by exact_mod_cast this
        linarith
      have heven := hnearest.even (by rw [abs_of_nonneg] <;> linarith)
      have heq : (units : ℚ) = 2 ^ 24 - 1 := by linarith
      have heq : units = 2 ^ 24 - 1 := by
        have : ((units + 1 : ℕ) : ℚ) = (2 ^ 24 : ℕ) := by
          push_cast
          linarith
        have := Nat.cast_injective this
        omega
      omega
  · refine iff_of_true ?_ ?_
    · have := h.le_units
      omega
    · have hle : (2 : ℚ) ^ (105 : ℤ) ≤ 2 ^ exponent := zpow_le_zpow_right₀ one_le_two (by omega)
      have hlarge := h.le.resolve_left (by omega)
      calc (2 : ℚ) ^ 128 - 2 ^ 103 ≤ 2 ^ 23 * 2 ^ (105 : ℤ) := by norm_num
        _ ≤ m.toRat / 2 ^ exponent * 2 ^ exponent :=
          mul_le_mul hlarge hle (by positivity) (by positivity)
        _ = m.toRat := (IsScaled.toRat_eq m exponent).symm

/-- The fields of a sign and other bits. -/
theorem reading_signBit (negative : Bool) {n : ℕ} (hn : n < 2 ^ 31) :
    reading (signBit negative + n).toUInt32.toNat =
      if n / 2 ^ 23 = 255 then if n % 2 ^ 23 = 0 then .infinite negative else .nan negative
      else if n / 2 ^ 23 = 0 then .finite negative ⟨n % 2 ^ 23, -149⟩
      else .finite negative ⟨2 ^ 23 + n % 2 ^ 23, (n / 2 ^ 23 : ℕ) - 150⟩ := by
  have hsign : signBit negative = negative.toNat * 2 ^ 31 := by cases negative <;> rfl
  have hbit : negative.toNat < 2 := Bool.toNat_lt _
  obtain ⟨bits, hbits⟩ : ∃ bits, negative.toNat * 2 ^ 31 + n = bits := ⟨_, rfl⟩
  have hall : bits.toUInt32.toNat = bits := Nat.mod_eq_of_lt (by omega)
  have htop : bits / 2 ^ 31 % 2 = negative.toNat := by omega
  have hexponent : bits / 2 ^ 23 % 2 ^ 8 = n / 2 ^ 23 := by omega
  have hfraction : bits % 2 ^ 23 = n % 2 ^ 23 := by omega
  rw [hsign, hbits, hall, reading]
  simp only [htop, hexponent, hfraction]
  cases negative <;> rfl

theorem IsScaled.rounds (h : IsScaled m units exponent) (negative : Bool) :
    Rounds (.finite negative m) (reading (signBit negative
      + min (units + (exponent + 149).toNat * 2 ^ 23) infinity).toUInt32.toNat) := by
  have hinfinity : infinity = 255 * 2 ^ 23 := rfl
  have hleast := h.le_exponent
  have hupper := h.units_le
  have hlower := h.le_units
  have hlimit := h.infinity_le_iff
  obtain ⟨k, rfl⟩ : ∃ k : ℕ, exponent = k - 149 := ⟨(exponent + 149).toNat, by omega⟩
  have hk : ((k : ℤ) - 149 + 149).toNat = k := by omega
  rw [hk] at hlimit ⊢
  rw [reading_signBit negative (by omega)]
  by_cases hover : infinity ≤ units + k * 2 ^ 23
  · rw [min_eq_right hover, hinfinity]
    exact .overflow negative (hlimit.mp hover)
  have hlt := not_le.mp fun hle => hover (hlimit.mpr hle)
  rw [min_eq_left (by omega), if_neg (by omega)]
  rcases lt_or_ge units (2 ^ 23) with hfew | hmany
  · obtain rfl : k = 0 := by omega
    rw [if_pos (by omega)]
    have hdigits : (units + 0 * 2 ^ 23) % 2 ^ 23 = units := by omega
    rw [hdigits]
    exact .finite negative (h.isRounded ⟨hfew.trans (by decide), le_refl _, by norm_num, .inl rfl⟩
      (by simp [Magnitude.toRat]) hlt id)
  rw [if_neg (by omega)]
  rcases hupper.lt_or_eq with hfits | rfl
  · have hdigits : 2 ^ 23 + (units + k * 2 ^ 23) % 2 ^ 23 = units := by omega
    have hexponent : (((units + k * 2 ^ 23) / 2 ^ 23 : ℕ) : ℤ) - 150 = k - 149 := by omega
    rw [hdigits, hexponent]
    exact .finite negative
      (h.isRounded ⟨hfits, hleast, by dsimp only; omega, .inr hmany⟩ rfl hlt id)
  · -- the digits carry over into the exponent
    have hdigits : 2 ^ 23 + (2 ^ 24 + k * 2 ^ 23) % 2 ^ 23 = 2 ^ 23 := by omega
    have hexponent : (((2 ^ 24 + k * 2 ^ 23) / 2 ^ 23 : ℕ) : ℤ) - 150 = 1 + (k - 149) := by omega
    rw [hdigits, hexponent]
    refine .finite negative (h.isRounded ⟨by norm_num, by dsimp only; omega, by dsimp only; omega,
      .inr (le_refl _)⟩ ?_ hlt fun _ => by norm_num)
    rw [Magnitude.toRat, zpow_add₀ two_ne_zero]
    push_cast
    ring

end Single

namespace Reading

/-- A zero has the least exponent. -/
theorem exponent_le_of_eq_zero {bits : ℕ} {negative : Bool} {m : Magnitude}
    (h : ofBits bits = .finite negative m) (hzero : m.significand = 0) : m.exponent ≤ -126 := by
  unfold ofBits at h
  simp only at h
  split at h
  · split at h <;> cases h
  · split at h
    · cases h
      show (-1074 : ℤ) ≤ -126
      decide
    · cases h
      have hpos : 0 < Nat.pow 2 52 := Nat.two_pow_pos 52
      simp only at hzero
      omega

end Reading

namespace Single

/-- **A double is rounded to the nearest number in single precision.** -/
theorem rounds_bits (x : Double) : Rounds x.reading (reading (bits x).toNat) := by
  unfold bits
  have hzero : ∀ negative m, x.reading = .finite negative m → m.significand = 0 →
      m.exponent ≤ -126 := fun _ _ => Reading.exponent_le_of_eq_zero
  cases hx : x.reading with
  | nan negative =>
    simp only
    rw [reading_signBit negative (by decide)]
    exact .nan negative
  | infinite negative =>
    simp only
    rw [reading_signBit negative (by decide)]
    exact .infinite negative
  | finite negative m =>
    obtain ⟨units, exponent, hscaled, hbits⟩ := exists_isScaled (hzero negative m hx)
    simp only
    rw [hbits]
    exact hscaled.rounds negative

end Single

end Solids
