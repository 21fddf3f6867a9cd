import Spreadsheet.Formula.Eval
import Spreadsheet.Formula.Parser
import Spreadsheet.Proofs.Decimal.Longhand

/-!
# Division in formulas

Results:
* `quotient_signs`: it does not matter which operand of a division has a sign. The sign may be
  written before the quotient unless the digits that are left out round a positive quotient.
* `quotient_rounding`: the quotient of positive numbers is the nearest number with 28 digits, except
  just below the midpoint of two such numbers.
* `quotient_of_product`: a number with at most 28 digits is got back from its product with another
  one by division.
-/

namespace Spreadsheet.Formula

open Decimal (longQuotient quotientDigits longDigits Nearest HasDigits RisesToMidpoint unit cut
  longhand)

variable {x y : Decimal}

theorem minus_apply (hx : x.IsNormal) : Sign.minus.apply (.number x) = .number (-x) := by
  show Scalar.number (-x).normalize = _
  rw [hx.neg.normalize_eq]

theorem div_apply (x : Decimal) (hy : y.unscaled ≠ 0) :
    Operator.div.apply (.number x) (.number y) =
      if (x / y).inRange then .number (x / y).normalize else .error .value := by
  have hdivide : divide x y = .ok (x / y) := if_neg hy
  show compute divide (.number x) (.number y) = _
  simp only [compute, Scalar.toNumber, bind, Except.bind, hdivide]

theorem mul_apply (x y : Decimal) :
    Operator.mul.apply (.number x) (.number y) =
      if (x * y).inRange then .number (x * y).normalize else .error .value :=
  rfl

/-- A sign before the first operand of a division does what it does before the second, and two signs
    do nothing. A sign before the whole quotient does the same exactly if less than half a unit is
    left out of the magnitude after 28 digits. Otherwise the positive quotient is rounded and the
    negative one is not, so that they are a unit apart. -/
theorem quotient_signs {l r : Decimal} (hl : l.IsNormal) (hr : r.IsNormal) (hr0 : r ≠ 0)
    (hrange : (l / r).inRange) :
    let x := Scalar.number l
    let y := Scalar.number r
    Operator.div.apply (Sign.minus.apply x) y = Operator.div.apply x (Sign.minus.apply y) ∧
    Operator.div.apply (Sign.minus.apply x) (Sign.minus.apply y) = Operator.div.apply x y ∧
    (Operator.div.apply (Sign.minus.apply x) y = Sign.minus.apply (Operator.div.apply x y) ↔
      ¬ (longQuotient l r).LeavesHalf quotientDigits) ∧
    ((longQuotient l r).LeavesHalf quotientDigits →
      (-l / r).unscaled = 1 - (l / r).unscaled ∧ (-l / r).scale = (l / r).scale) := by
  intro x y
  have hr' : r.unscaled ≠ 0 := hr.unscaled_ne_zero hr0
  have hneg : (-r).unscaled ≠ 0 := neg_ne_zero.2 hr'
  simp only [x, y, minus_apply hl, minus_apply hr, div_apply _ hr', div_apply _ hneg,
    Decimal.div_neg, Decimal.neg_neg, hrange, if_true,
    minus_apply (Decimal.isNormal_normalize _), true_and]
  refine ⟨?_, Decimal.neg_div_of_leavesHalf⟩
  rw [← Decimal.neg_div_iff, ← Decimal.normalize_neg, ← Decimal.toRat_neg]
  constructor
  · intro heq
    split at heq
    · exact Decimal.normalize_eq_iff.1 (Scalar.number.inj heq)
    · simp at heq
  · intro heq
    have hnegRange : (-l / r).inRange :=
      (Decimal.inRange_congr heq).trans ((Decimal.inRange_neg _).trans hrange)
    rw [if_pos hnegRange, Decimal.normalize_eq_iff.2 heq]

/-- A third is cut alike with either sign. -/
theorem quotient_signs_one_third :
    let x := Scalar.number ⟨1, 0⟩
    let y := Scalar.number ⟨3, 0⟩
    Operator.div.apply (Sign.minus.apply x) y = Operator.div.apply x (Sign.minus.apply y) ∧
    Operator.div.apply (Sign.minus.apply x) (Sign.minus.apply y) = Operator.div.apply x y ∧
    Operator.div.apply (Sign.minus.apply x) y = Sign.minus.apply (Operator.div.apply x y) := by
  obtain ⟨hone, htwo, hthree, -⟩ := quotient_signs (l := ⟨1, 0⟩) (r := ⟨3, 0⟩) (Or.inr (by decide))
    (Or.inr (by decide)) (by decide) (by decide +kernel)
  exact ⟨hone, htwo, hthree.2 (by decide +kernel)⟩

/-- Two thirds are not: `-2 / 3` ends in a six and `2 / 3` in a seven. -/
theorem quotient_signs_two_thirds :
    Operator.div.apply (Sign.minus.apply (.number ⟨2, 0⟩)) (.number ⟨3, 0⟩) ≠
      Sign.minus.apply (Operator.div.apply (.number ⟨2, 0⟩) (.number ⟨3, 0⟩)) := by
  decide +kernel

/-! ## Rounding -/

/-- The quotient of two positive numbers is rounded half up twice, to the digits that long division
    finds and then to 28 digits, and it is exact if it has no more digits than that. It is the
    nearest number with 28 digits unless the first rounding brings it up to the midpoint of two such
    numbers. Then it is a unit more than the nearest one. -/
theorem quotient_rounding {l r : Decimal} (hl : 0 < l.unscaled) (hr : 0 < r.unscaled) :
    let q := l.toRat / r.toRat
    ∃ z, divide l r = .ok z ∧
      (∃ w, Nearest (longDigits l r) q w ∧ Nearest quotientDigits w z.toRat) ∧
      (HasDigits quotientDigits q → z.toRat = q) ∧
      (Nearest quotientDigits q z.toRat ↔ ¬ RisesToMidpoint (longDigits l r) quotientDigits q) ∧
      (RisesToMidpoint (longDigits l r) quotientDigits q →
        Nearest quotientDigits q (z.toRat - unit quotientDigits q)) := by
  intro q
  have hq : 0 < q := div_pos (Decimal.toRat_pos hl) (Decimal.toRat_pos hr)
  have hfar : quotientDigits < longDigits l r := lt_of_lt_of_le (by decide) (le_max_left ..)
  have hlong : longDigits l r ≠ 0 := by omega
  have hnear : quotientDigits ≠ 0 := by decide
  refine ⟨l / r, if_neg hr.ne', ?_⟩
  rw [Decimal.toRat_div hl hr]
  refine ⟨⟨_, Decimal.nearest_roundTo hq hlong,
      Decimal.nearest_roundTo (Decimal.roundTo_pos hq hlong) hnear⟩, ?_,
    Decimal.nearest_roundTo_roundTo_iff hq hnear hfar,
    Decimal.nearest_roundTo_roundTo_sub hq hnear hfar⟩
  intro hdigits
  have hexact := (Decimal.nearest_roundTo hq hlong).eq_of_hasDigits (hdigits.mono hfar.le)
  rw [hexact, (Decimal.nearest_roundTo hq hnear).eq_of_hasDigits hdigits]

/-- Two thirds are rounded correctly. -/
theorem quotient_rounding_two_thirds :
    ∃ z, divide ⟨2, 0⟩ ⟨3, 0⟩ = .ok z ∧
      Nearest quotientDigits (Decimal.toRat ⟨2, 0⟩ / Decimal.toRat ⟨3, 0⟩) z.toRat := by
  obtain ⟨z, hz, -, -, hnearest, -⟩ :=
    quotient_rounding (l := ⟨2, 0⟩) (r := ⟨3, 0⟩) (by decide) (by decide)
  refine ⟨z, hz, hnearest.2 ?_⟩
  rintro ⟨-, hbelow⟩
  have hq : Decimal.toRat ⟨2, 0⟩ / Decimal.toRat ⟨3, 0⟩ = 2 / 3 := by norm_num [Decimal.toRat]
  have hlog : Int.log 10 (2 / 3 : ℚ) = -1 := (Decimal.log_eq_iff (by norm_num)).2 (by norm_num)
  rw [hq, Decimal.midpoint, Decimal.lower, unit, hlog] at hbelow
  norm_num [quotientDigits] at hbelow

/-- A quotient less than a midpoint by half a unit of its hundredth digit is rounded up: `1` is
    nearer to it than what is found. -/
theorem quotient_rounding_below_midpoint :
    let l : Decimal := ⟨2 * Decimal.pow10 99 + Decimal.pow10 72 - 1, 99⟩
    let r : Decimal := ⟨2, 0⟩
    let z : Decimal := ⟨1000000000000000000000000001, 27⟩
    0 < l.unscaled ∧ 0 < r.unscaled ∧ divide l r = .ok z ∧ z.inRange ∧
      ¬ Nearest quotientDigits (l.toRat / r.toRat) z.toRat := by
  refine ⟨by decide +kernel, by decide, by decide +kernel, by decide +kernel, fun h => ?_⟩
  have hle := h.abs_le 1 ⟨1, 0, by norm_num [quotientDigits], by norm_num⟩
  norm_num [Decimal.toRat, Decimal.pow10, abs_of_nonneg, abs_of_nonpos] at hle

/-! ## Products -/

/-- Division undoes multiplication. A product in normal form has lost the zeros at its end, so the
    unscaled integers need not divide each other, and it may have any number of digits. Still
    `(a * b) / b` is `a`, and so it is with the division by hand, if `a` has no more digits than a
    quotient keeps. -/
theorem quotient_of_product {lookup : Lookup} {x y : Expr} {a b : Decimal}
    (hx : x.scalar lookup = .number a) (hy : y.scalar lookup = .number b) (ha : a.Proper)
    (hdigits : Digits.count a.unscaled.natAbs ≤ quotientDigits) (hb : b.IsNormal) (hb0 : b ≠ 0)
    (hrange : (a * b).inRange) :
    let e := Expr.binary .div (.group (.binary .mul x y)) y
    e.scalar lookup = .number a ∧ e.value lookup = .number a ∧
      (cut quotientDigits (longhand (a * b).normalize b)).normalize = a := by
  intro e
  have hb' : b.unscaled ≠ 0 := hb.unscaled_ne_zero hb0
  have hbRat : b.toRat ≠ 0 := fun hzero => hb' (Decimal.toRat_eq_zero_iff.1 hzero)
  have hquot : (a * b).normalize.toRat / b.toRat = a.toRat := by
    rw [Decimal.toRat_normalize, Decimal.toRat_mul, mul_div_cancel_right₀ _ hbRat]
  have hexact : ((a * b).normalize / b).toRat = a.toRat := by
    rw [← hquot]
    exact Decimal.toRat_div_of_hasDigits hb' (hquot ▸ Decimal.hasDigits_toRat hdigits)
  have hnormal {z : Decimal} (hz : z.toRat = a.toRat) : z.normalize = a :=
    (Decimal.normalize_eq_iff.2 hz).trans ha.normal.normalize_eq
  have hscalar : e.scalar lookup = .number a := by
    simp only [e, Expr.scalar, hx, hy, mul_apply, hrange, if_true, div_apply _ hb',
      (Decimal.inRange_congr hexact).trans ha.inRange, hnormal hexact]
  refine ⟨hscalar, ?_, hnormal ((Decimal.toRat_cut_longhand hb').trans hexact)⟩
  rw [Expr.value, hscalar, Scalar.toCell, ha.normal.normalize_eq]

/-- The product of `-2` and `5` is `-1` with a zero less, and `5` does not divide `-1`. -/
theorem quotient_of_product_ten :
    let lookup : Lookup :=
      ⟨fun p => if p.col = 0 then .number ⟨-2, 0⟩ else .number ⟨5, 0⟩, fun _ _ => .blank⟩
    let e := Expr.binary .div
      (.group (.binary .mul (.ref ⟨none, "A1"⟩) (.ref ⟨none, "B1"⟩))) (.ref ⟨none, "B1"⟩)
    parse "=(A1*B1)/B1" = .ok e ∧
      (⟨-2, 0⟩ * ⟨5, 0⟩ : Decimal).normalize = ⟨-1, -1⟩ ∧ e.value lookup = .number ⟨-2, 0⟩ := by
  intro lookup e
  have hx : Expr.scalar lookup (.ref ⟨none, "A1"⟩) = .number ⟨-2, 0⟩ := by decide +kernel
  have hy : Expr.scalar lookup (.ref ⟨none, "B1"⟩) = .number ⟨5, 0⟩ := by decide +kernel
  obtain ⟨-, hvalue, -⟩ := quotient_of_product hx hy ⟨Or.inr (by decide), by decide +kernel⟩
    (by decide +kernel) (Or.inr (by decide)) (by decide) (by decide +kernel)
  exact ⟨by decide +kernel, by decide +kernel, hvalue⟩

end Spreadsheet.Formula
