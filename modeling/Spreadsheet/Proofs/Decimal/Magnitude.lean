import Mathlib.Algebra.Order.Field.Power
import Mathlib.Data.Int.Log
import Mathlib.Data.Rat.Floor
import Spreadsheet.Proofs.Decimal.Normal

/-!
# The leading digit of a decimal

The exponent of the leading digit is the logarithm of the number. It does not depend on the pair,
and neither does the range of exponents that a number may have.

Results:
* `log_eq_iff`, `log_mul_zpow`: the logarithm, by the powers of ten around a number.
* `leadExponent_eq_log`: the exponent of the leading digit of a pair.
* `inRange_iff`: a pair is in range exactly if its number is.
-/

namespace Spreadsheet.Decimal

/-! ## Logarithms -/

/-- The exponent of the leading digit, by the powers of ten around the number. -/
theorem log_eq_iff {q : ℚ} (hq : 0 < q) {k : ℤ} :
    Int.log 10 q = k ↔ 10 ^ k ≤ q ∧ q < 10 ^ (k + 1) := by
  have hle : (10 : ℚ) ^ k ≤ q ↔ k ≤ Int.log 10 q :=
    Int.zpow_le_iff_le_log (b := 10) (by decide) hq
  have hlt : q < (10 : ℚ) ^ (k + 1) ↔ Int.log 10 q < k + 1 :=
    Int.lt_zpow_iff_log_lt (b := 10) (by decide) hq
  rw [hle, hlt]
  omega

theorem zpow_log_le {q : ℚ} (hq : 0 < q) : 10 ^ Int.log 10 q ≤ q :=
  ((log_eq_iff hq).1 rfl).1

theorem lt_zpow_log {q : ℚ} (hq : 0 < q) : q < 10 ^ (Int.log 10 q + 1) :=
  ((log_eq_iff hq).1 rfl).2

/-- A power of ten moves the leading digit. -/
theorem log_mul_zpow {q : ℚ} (hq : 0 < q) (k : ℤ) :
    Int.log 10 (q * 10 ^ k) = Int.log 10 q + k := by
  have hpos : (0 : ℚ) < 10 ^ k := by positivity
  rw [log_eq_iff (mul_pos hq hpos), add_right_comm, zpow_add₀ (by norm_num),
    zpow_add₀ (by norm_num)]
  exact ⟨mul_le_mul_of_nonneg_right (zpow_log_le hq) hpos.le,
    mul_lt_mul_of_pos_right (lt_zpow_log hq) hpos⟩

/-! ## Pairs -/

variable {x : Decimal}

theorem toRat_eq_zero_iff : x.toRat = 0 ↔ x.unscaled = 0 := by
  rw [toRat, mul_eq_zero, or_iff_left (zpow_ne_zero _ (by norm_num)), Int.cast_eq_zero]

theorem abs_toRat (x : Decimal) : |x.toRat| = x.unscaled.natAbs * 10 ^ (-x.scale) := by
  have hpos : (0 : ℚ) < 10 ^ (-x.scale) := by positivity
  rw [toRat, abs_mul, abs_of_pos hpos, Nat.cast_natAbs, Int.cast_abs]

/-- The exponent of the leading digit of a pair is that of its number. -/
theorem leadExponent_eq_log (h : x.unscaled ≠ 0) : x.leadExponent = Int.log 10 |x.toRat| := by
  have hpos : (0 : ℚ) < x.unscaled.natAbs := by
    exact_mod_cast Int.natAbs_pos.2 h
  rw [abs_toRat, log_mul_zpow hpos, Int.log_natCast, leadExponent, Digits.count_eq_log]
  push_cast
  ring

/-- A number may be stored: it is zero, or its leading digit has an exponent between `-999999` and
    `999999`. -/
def Storable (q : ℚ) : Prop :=
  q = 0 ∨ (-999999 ≤ Int.log 10 |q| ∧ Int.log 10 |q| ≤ 999999)

theorem inRange_iff : x.inRange = true ↔ Storable x.toRat := by
  rw [inRange, Bool.or_eq_true, beq_iff_eq, decide_eq_true_eq, Storable, toRat_eq_zero_iff]
  by_cases h : x.unscaled = 0
  · simp only [h, true_or]
  · rw [leadExponent_eq_log h, maxExponent]
    omega

end Spreadsheet.Decimal
