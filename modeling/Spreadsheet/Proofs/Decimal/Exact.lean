import Spreadsheet.Proofs.Decimal.Quotient

/-!
# Exact quotients

A quotient that can be written with the digits that are kept is found exactly, whatever the signs
and however many digits its operands have: long division comes to an end before it has to round, and
of what it finds only zeros are cut off.

Results:
* `toRat_longQuotient_of_hasDigits`: long division finds quotients with `workingDigits` digits.
* `toRat_cut_of_hasDigits`: the cut leaves a number that needs no more digits.
* `toRat_div_of_hasDigits`: a quotient with `quotientDigits` digits is exact.
-/

namespace Spreadsheet.Decimal

variable {x y : Decimal} {digits : ℕ}

theorem toRat_mul (x y : Decimal) : (x * y).toRat = x.toRat * y.toRat := by
  show ((x.unscaled * y.unscaled : ℤ) : ℚ) * 10 ^ (-(x.scale + y.scale)) = _
  rw [neg_add, zpow_add₀ (by norm_num), Int.cast_mul, toRat, toRat, mul_mul_mul_comm]

theorem HasDigits.neg {z : ℚ} (h : HasDigits digits z) : HasDigits digits (-z) := by
  obtain ⟨m, e, hm, rfl⟩ := h
  exact ⟨-m, e, by rwa [abs_neg], by push_cast; ring⟩

/-! ## Long division -/

theorem longQuotient_of_zero (hx : x.unscaled = 0) (y : Decimal) : longQuotient x y = 0 :=
  if_pos hx

/-- Long division of positive numbers finds a quotient that has no more digits than it looks for. -/
theorem toRat_longQuotient_of_pos (hx : 0 < x.unscaled) (hy : 0 < y.unscaled)
    (h : HasDigits workingDigits (x.toRat / y.toRat)) :
    (longQuotient x y).toRat = x.toRat / y.toRat := by
  have hq : 0 < x.toRat / y.toRat := div_pos (toRat_pos hx) (toRat_pos hy)
  have hle : workingDigits ≤ longDigits x y := le_max_left ..
  have hlong : longDigits x y ≠ 0 := Nat.ne_of_gt (Nat.lt_of_lt_of_le (by decide) hle)
  rw [toRat_longQuotient hx hy, (nearest_roundTo hq hlong).eq_of_hasDigits (h.mono hle)]

/-- So it does with any signs. -/
theorem toRat_longQuotient_of_hasDigits (hy : y.unscaled ≠ 0)
    (h : HasDigits workingDigits (x.toRat / y.toRat)) :
    (longQuotient x y).toRat = x.toRat / y.toRat := by
  -- the sign of the dividend goes to the quotient, and so does that of the divisor
  have hleft {y : Decimal} (hy : 0 < y.unscaled) (h : HasDigits workingDigits (x.toRat / y.toRat)) :
      (longQuotient x y).toRat = x.toRat / y.toRat := by
    rcases lt_trichotomy x.unscaled 0 with hx | hx | hx
    · have hneg : (-x).toRat / y.toRat = -(x.toRat / y.toRat) := by rw [toRat_neg]; ring
      have hquot := toRat_longQuotient_of_pos (x := -x) (neg_pos.2 hx) hy (hneg ▸ h.neg)
      rw [longQuotient_neg_left, toRat_neg, hneg] at hquot
      exact neg_inj.1 hquot
    · rw [longQuotient_of_zero hx, toRat_zero, toRat_eq_zero_iff.2 hx, zero_div]
    · exact toRat_longQuotient_of_pos hx hy h
  rcases lt_or_gt_of_ne hy with hy | hy
  · have hneg : x.toRat / (-y).toRat = -(x.toRat / y.toRat) := by rw [toRat_neg]; ring
    have hquot := hleft (y := -y) (neg_pos.2 hy) (hneg ▸ h.neg)
    rw [longQuotient_neg_right, toRat_neg, hneg] at hquot
    exact neg_inj.1 hquot
  · exact hleft hy h

/-! ## The cut -/

/-- Of a number that needs no more digits than are kept, only zeros are left out. -/
theorem pow_dvd_of_hasDigits (hd : digits ≠ 0) (h : HasDigits digits x.toRat) :
    10 ^ x.extraDigits digits ∣ x.unscaled.natAbs := by
  have hpositive {x : Decimal} (hx : 0 < x.unscaled) (h : HasDigits digits x.toRat) :
      10 ^ x.extraDigits digits ∣ x.unscaled.natAbs := by
    have hcut : (cut digits x).toRat = x.toRat := by
      rw [toRat_cut hx hd, (nearest_roundTo (toRat_pos hx) hd).eq_of_hasDigits h]
    have hscale : x.scale = (cut digits x).scale + x.extraDigits digits := by
      rw [cut_eq, sub_add_cancel]
    have hunscaled := unscaled_of_toRat_eq hcut hscale
    rw [hunscaled, Int.natAbs_mul, Int.natAbs_pow]
    exact dvd_mul_left ..
  rcases lt_trichotomy x.unscaled 0 with hx | hx | hx
  · have hneg := hpositive (x := -x) (by simpa using hx) (by rw [toRat_neg]; exact h.neg)
    rwa [extraDigits_neg, unscaled_neg, Int.natAbs_neg] at hneg
  · rw [hx, Int.natAbs_zero]
    exact dvd_zero _
  · exact hpositive hx h

/-- Zeros are cut off without rounding. -/
theorem toRat_cut_of_dvd (h : 10 ^ x.extraDigits digits ∣ x.unscaled.natAbs) :
    (cut digits x).toRat = x.toRat := by
  have hpos : 0 < 10 ^ x.extraDigits digits := by positivity
  have hround : ¬ x.LeavesHalf digits := by
    rw [LeavesHalf, Nat.mod_eq_zero_of_dvd h]
    omega
  have hcut : cut digits x = ⟨x.unscaled.sign * (x.unscaled.natAbs / 10 ^ x.extraDigits digits : ℕ),
      x.scale - x.extraDigits digits⟩ := by
    simp only [cut_eq, hround, and_false, if_false, add_zero]
  have hunscaled : x.unscaled = (cut digits x).unscaled * 10 ^ x.extraDigits digits := by
    conv_lhs => rw [← Int.sign_mul_natAbs x.unscaled, ← Nat.div_mul_cancel h]
    rw [hcut]
    push_cast
    ring
  exact (toRat_eq_of_unscaled hunscaled (by rw [hcut, sub_add_cancel])).symm

/-- The cut leaves a number that needs no more digits. -/
theorem toRat_cut_of_hasDigits (hd : digits ≠ 0) (h : HasDigits digits x.toRat) :
    (cut digits x).toRat = x.toRat :=
  toRat_cut_of_dvd (pow_dvd_of_hasDigits hd h)

/-! ## Quotients -/

/-- A quotient that can be written with the digits that are kept is exact. -/
theorem toRat_div_of_hasDigits (hy : y.unscaled ≠ 0)
    (h : HasDigits quotientDigits (x.toRat / y.toRat)) : (x / y).toRat = x.toRat / y.toRat := by
  have hlong := toRat_longQuotient_of_hasDigits hy (h.mono (by decide))
  rw [← hlong] at h ⊢
  exact toRat_cut_of_hasDigits (by decide) h

end Spreadsheet.Decimal
