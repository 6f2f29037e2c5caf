import Solids.Proofs.Binary64
import Solids.Json.Geometry
/-!
# Solids.Proofs.NumberValue

**What a JSON number is.** A number has a value, whatever form it is written in. The checks of
a reader are made on a double, which need not have the same value. Here it is shown that they
decide what they should all the same.

Main definition:

* `Number.value` — the value of a number.

Main statements:

* `Number.isFinite_toDouble` — no number gets infinite;
* `Number.zero_lt_toDouble_iff` — a number is above zero when its double is;
* `Number.natural?_toDouble` — a number is an integer that is not too large when its double is.
-/

namespace Solids

/-! ### Values -/

namespace Number

/-- The number itself. -/
def value : Number → ℚ
  | .natural value => value.toNat
  | .negative value _ => value.toInt
  | .real value _ => (Reading.ofFloat value).toRat

theorem value_negative_lt_zero {v : Int64} (h : v < 0) : (Number.negative v h).value < 0 := by
  have hlt : v.toInt < 0 := by simpa [Int64.lt_iff_toInt_lt] using h
  exact Int.cast_lt_zero.mpr hlt

/-- It does not matter for an integer how it is written. -/
theorem natural?_eq_some_iff (n : Number) (k : ℕ) : n.natural? = some k ↔ n.value = k := by
  cases n with
  | natural v => simp [natural?, value]
  | negative v h =>
    have hvalue := value_negative_lt_zero h
    have hk : (0 : ℚ) ≤ k := k.cast_nonneg
    exact iff_of_false (by simp [natural?]) (by linarith)
  | real x hfinite =>
    exact Reading.natural?_eq_some_iff ((Reading.isFinite_ofFloat x).trans hfinite) k

/-- What is the same about a number and its double. -/
theorem ofFloat_toFloat_spec (n : Number) : (Reading.ofFloat n.toFloat).isFinite = true ∧
    (0 < (Reading.ofFloat n.toFloat).toRat ↔ 0 < n.value) ∧
    ∀ k : ℕ, k < 2 ^ 53 → ((Reading.ofFloat n.toFloat).toRat = k ↔ n.value = k) := by
  cases n with
  | natural v =>
    obtain ⟨m, hreading, hexact, hlong⟩ := Reading.exists_ofFloat_toFloat v
    simp only [toFloat, hreading, value]
    refine ⟨rfl, ?_⟩
    rcases lt_or_ge v.toNat (2 ^ 53) with hlt | hle
    · have hrat : (Reading.finite false m).toRat = v.toNat := hexact hlt
      rw [hrat]
      exact ⟨Iff.rfl, fun k _ => Iff.rfl⟩
    · -- the double may be another integer, but neither of the two is small
      have hrat : (2 : ℚ) ^ 53 ≤ (Reading.finite false m).toRat := hlong hle
      have hvalue : (2 : ℚ) ^ 53 ≤ v.toNat := by exact_mod_cast hle
      have hpos : (0 : ℚ) < 2 ^ 53 := by norm_num
      refine ⟨iff_of_true (hpos.trans_le hrat) (hpos.trans_le hvalue), fun k hk => ?_⟩
      have hk' : (k : ℚ) < 2 ^ 53 := by exact_mod_cast hk
      exact iff_of_false (hk'.trans_le hrat).ne' (hk'.trans_le hvalue).ne'
  | negative v h =>
    have hvalue := value_negative_lt_zero h
    have hlt : v.toInt < 0 := by simpa [Int64.lt_iff_toInt_lt] using h
    have hle := v.le_toInt
    have hsize : v.toInt.natAbs < UInt64.size := by
      change v.toInt.natAbs < 2 ^ 64
      omega
    have hpos : 0 < v.toInt.natAbs.toUInt64.toNat := by
      rw [Nat.toUInt64_eq, UInt64.toNat_ofNat_of_lt' hsize]
      omega
    obtain ⟨m, -, hreading, hm, -, -⟩ := Reading.exists_ofFloat_of_pos hpos
    have hrat : (Reading.finite true m).toRat < 0 := neg_neg_of_pos hm
    simp only [toFloat, hreading]
    refine ⟨rfl, iff_of_false hrat.not_gt hvalue.not_gt, fun k _ => ?_⟩
    have hk : (0 : ℚ) ≤ k := k.cast_nonneg
    exact iff_of_false (hrat.trans_le hk).ne (hvalue.trans_le hk).ne
  | real x hfinite =>
    exact ⟨(Reading.isFinite_ofFloat x).trans hfinite, Iff.rfl, fun k _ => Iff.rfl⟩

theorem isFinite_toFloat (n : Number) : n.toFloat.isFinite = true :=
  (Reading.isFinite_ofFloat n.toFloat).symm.trans n.ofFloat_toFloat_spec.1

end Number

/-! ### Doubles of numbers -/

theorem isNaN_of_isFinite {x : Float} (h : x.isFinite = true) : x.isNaN = false := by
  change x.toModel.unpack.isFinite = true at h
  change x.toModel.unpack.isNaN = false
  generalize x.toModel.unpack = u at h ⊢
  cases u with
  | notANumber => cases h
  | _ => rfl

namespace Number

theorem toDouble_eq (n : Number) :
    n.toDouble = .number n.toFloat (isNaN_of_isFinite n.isFinite_toFloat) :=
  dif_pos _

/-- No number gets infinite when it is made a double. -/
@[simp] theorem isFinite_toDouble (n : Number) : n.toDouble.isFinite = true := by
  rw [toDouble_eq]
  exact n.isFinite_toFloat

theorem zero_lt_toDouble_iff (n : Number) : 0 < n.toDouble ↔ 0 < n.value := by
  obtain ⟨-, hpos, -⟩ := n.ofFloat_toFloat_spec
  rw [toDouble_eq, ← hpos, Reading.toRat_pos_iff n.isFinite_toFloat]
  exact Iff.rfl

/-- An integer below `2 ^ 53` is told from all other numbers by its double. -/
theorem natural?_toDouble (n : Number) {k : ℕ} (hk : k < 2 ^ 53) :
    n.toDouble.natural? = some k ↔ n.value = k := by
  obtain ⟨hfinite, -, hvalue⟩ := n.ofFloat_toFloat_spec
  rw [toDouble_eq, ← hvalue k hk, ← Reading.natural?_eq_some_iff hfinite]
  exact Iff.rfl

end Number

namespace Double

/-- A finite double is written as a number that is read as the same double. -/
theorem exists_toJson_eq {x : Double} (h : x.isFinite = true) :
    ∃ n : Number, x.toJson = .number n ∧ n.toDouble = x := by
  cases x with
  | nan negative => cases h
  | number a hnumber => exact ⟨.real a h, dif_pos h, dif_pos hnumber⟩

/-- Any other double is written as no number. -/
theorem toJson_of_not_isFinite {x : Double} (h : x.isFinite ≠ true) : x.toJson = .null := by
  cases x with
  | nan negative => rfl
  | number a hnumber => exact dif_neg h

end Double

end Solids
