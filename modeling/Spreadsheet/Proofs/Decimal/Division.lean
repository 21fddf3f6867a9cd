import Spreadsheet.Decimal.Division
import Spreadsheet.Proofs.Decimal.Normal

/-!
# Signs of quotients

Long division works on magnitudes, so it does not matter where a sign is written. The cut to the
digits that are kept is another matter: it rounds positive numbers only.

Results:
* `longQuotient_neg_left`, `longQuotient_neg_right`: long division passes signs on.
* `cut_eq`: what is kept of a number, and when it is rounded.
* `cut_neg`, `cut_neg_of_leavesHalf`: a number and its negative are cut alike if less than half a
  unit is left out; else the positive one is a unit larger.
* `div_neg`, `neg_div_iff`: where a sign may be written in a quotient.
-/

namespace Spreadsheet.Decimal

variable (x y : Decimal) (digits : Nat)

/-! ## Long division -/

theorem longQuotient_neg_left : longQuotient (-x) y = -longQuotient x y := by
  simp only [longQuotient, unscaled_neg, scale_neg, neg_eq_zero, Int.natAbs_neg, Int.sign_neg,
    neg_mul]
  split <;> rfl

theorem longQuotient_neg_right : longQuotient x (-y) = -longQuotient x y := by
  simp only [longQuotient, unscaled_neg, scale_neg, Int.natAbs_neg, Int.sign_neg, mul_neg, neg_mul]
  split <;> rfl

/-! ## The cut -/

/-- The number of digits that are left out. -/
def extraDigits : Nat :=
  Digits.count x.unscaled.natAbs - digits

/-- What is left out of the magnitude is half a unit of the last digit that is kept, or more. -/
def LeavesHalf : Prop :=
  10 ^ x.extraDigits digits ≤ 2 * (x.unscaled.natAbs % 10 ^ x.extraDigits digits)

instance : Decidable (x.LeavesHalf digits) :=
  inferInstanceAs (Decidable (_ ≤ _))

theorem extraDigits_neg : (-x).extraDigits digits = x.extraDigits digits := by
  rw [extraDigits, extraDigits, unscaled_neg, Int.natAbs_neg]

theorem leavesHalf_neg : (-x).LeavesHalf digits ↔ x.LeavesHalf digits := by
  rw [LeavesHalf, LeavesHalf, extraDigits_neg, unscaled_neg, Int.natAbs_neg]

theorem tdiv_natCast (u : ℤ) (p : ℕ) : u.tdiv p = u.sign * (u.natAbs / p : ℕ) := by
  rcases u with (_ | n) | n
  · simp
  · exact (Int.one_mul _).symm
  · exact Int.neg_eq_neg_one_mul _

theorem tmod_natCast (u : ℤ) (p : ℕ) : u.tmod p = u.sign * (u.natAbs % p : ℕ) := by
  rcases u with (_ | n) | n
  · simp
  · exact (Int.one_mul _).symm
  · exact Int.neg_eq_neg_one_mul _

/-- The test for rounding sees a remainder with the sign of the number. -/
theorem pow10_le_iff :
    pow10 (x.extraDigits digits) ≤ 2 * x.unscaled.tmod (pow10 (x.extraDigits digits)) ↔
      0 < x.unscaled ∧ x.LeavesHalf digits := by
  have hpos : 0 < 10 ^ x.extraDigits digits := by positivity
  rw [pow10, Nat.pow_eq, tmod_natCast, LeavesHalf]
  generalize 10 ^ x.extraDigits digits = p at hpos
  rcases Int.lt_trichotomy x.unscaled 0 with hu | hu | hu
  · rw [Int.sign_eq_neg_one_of_neg hu]
    omega
  · rw [hu, Int.sign_zero, zero_mul, mul_zero, Int.natAbs_zero, Nat.zero_mod]
    omega
  · rw [Int.sign_eq_one_of_pos hu]
    omega

/-- The first digits are kept. Of a positive number they are rounded half up. -/
theorem cut_eq :
    cut digits x =
      ⟨x.unscaled.sign * (x.unscaled.natAbs / 10 ^ x.extraDigits digits : ℕ) +
          if 0 < x.unscaled ∧ x.LeavesHalf digits then 1 else 0,
        x.scale - x.extraDigits digits⟩ := by
  rw [cut, ← extraDigits]
  by_cases hextra : x.extraDigits digits = 0
  · -- nothing is left out, which is less than half a unit
    have hround : ¬ x.LeavesHalf digits := by
      rw [LeavesHalf, hextra, pow_zero, Nat.mod_one]
      decide
    simp only [hextra, hround, if_true, and_false, if_false, add_zero, pow_zero, Nat.div_one,
      Int.sign_mul_natAbs, Nat.cast_zero, sub_zero]
  · simp only [hextra, if_false, pow10_le_iff]
    rw [pow10, Nat.pow_eq, tdiv_natCast]
    split
    · rfl
    · rw [add_zero]

/-- A number and its negative are cut alike if less than half a unit is left out. -/
theorem cut_neg {x : Decimal} {digits : Nat} (h : ¬ x.LeavesHalf digits) :
    cut digits (-x) = -cut digits x := by
  simp only [cut_eq, leavesHalf_neg, extraDigits_neg, h, and_false, if_false, unscaled_neg,
    scale_neg, Int.sign_neg, Int.natAbs_neg, neg_mul, add_zero]
  rfl

theorem unscaled_ne_zero_of_leavesHalf {x : Decimal} {digits : Nat} (h : x.LeavesHalf digits) :
    x.unscaled ≠ 0 := by
  intro hzero
  have hpos : 0 < 10 ^ x.extraDigits digits := by positivity
  rw [LeavesHalf, hzero, Int.natAbs_zero, Nat.zero_mod] at h
  omega

/-- Else the magnitude of the positive one is a unit larger. -/
theorem cut_neg_of_leavesHalf {x : Decimal} {digits : Nat} (h : x.LeavesHalf digits) :
    (cut digits (-x)).unscaled = 1 - (cut digits x).unscaled ∧
      (cut digits (-x)).scale = (cut digits x).scale := by
  have hne := unscaled_ne_zero_of_leavesHalf h
  simp only [cut_eq, leavesHalf_neg, extraDigits_neg, h, and_true, unscaled_neg, scale_neg,
    Int.sign_neg, Int.natAbs_neg, neg_mul, Left.neg_pos_iff]
  rcases lt_or_gt_of_ne hne with hneg | hpos
  · rw [if_pos hneg, if_neg (by omega)]
    ring
  · rw [if_pos hpos, if_neg (by omega)]
    ring

/-! ## Quotients -/

theorem neg_div : -x / y = cut quotientDigits (-longQuotient x y) :=
  congrArg (cut quotientDigits) (longQuotient_neg_left x y)

theorem div_neg : x / -y = -x / y := by
  rw [neg_div]
  exact congrArg (cut quotientDigits) (longQuotient_neg_right x y)

/-- If half a unit or more is left out, the quotients of the two signs are a unit apart. -/
theorem neg_div_of_leavesHalf {x y : Decimal}
    (h : (longQuotient x y).LeavesHalf quotientDigits) :
    (-x / y).unscaled = 1 - (x / y).unscaled ∧ (-x / y).scale = (x / y).scale := by
  rw [neg_div]
  exact cut_neg_of_leavesHalf h

/-- A sign may be written before the quotient exactly if less than half a unit is left out. -/
theorem neg_div_iff :
    (-x / y).toRat = -(x / y).toRat ↔ ¬ (longQuotient x y).LeavesHalf quotientDigits := by
  rw [← toRat_neg]
  constructor
  · intro heq hhalf
    obtain ⟨hunscaled, hscale⟩ := neg_div_of_leavesHalf hhalf
    have hscales : (-(x / y)).scale = (-x / y).scale + (0 : ℕ) := by
      rw [scale_neg, hscale, Nat.cast_zero, add_zero]
    have hsame := unscaled_of_toRat_eq heq hscales
    rw [unscaled_neg, hunscaled, pow_zero, mul_one] at hsame
    omega
  · intro hless
    rw [neg_div, cut_neg hless]
    rfl

end Spreadsheet.Decimal
