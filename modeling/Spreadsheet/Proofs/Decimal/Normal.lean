import Mathlib.Algebra.Order.Field.Rat
import Mathlib.Tactic.Positivity
import Mathlib.Tactic.Ring
import Spreadsheet.Proofs.Decimal.Digits

/-!
# Normal forms of decimals

A pair in normal form is the only one for its number, so the equality of two numbers in normal form
is the equality of what they denote.

Results:
* `normalize_spec`: what `normalize` takes off a pair.
* `eq_iff_toRat_eq`, `normalize_eq_iff`: pairs in normal form are equal if they denote the same
  number.
* `normalize_neg`, `inRange_neg`: negative numbers have the normal form and the range of positive
  ones.
* `Proper`: the numbers that the program stores, in normal form and in range.
* `proper_of_ofText?`: a text that denotes a number denotes a proper one.
-/

namespace Spreadsheet.Decimal

/-- The number that a pair denotes. -/
def toRat (x : Decimal) : ℚ :=
  x.unscaled * 10 ^ (-x.scale)

theorem toRat_zero : toRat 0 = 0 := by
  show ((0 : ℤ) : ℚ) * 10 ^ (-(0 : ℤ)) = 0
  rw [Int.cast_zero, zero_mul]

/-! ## What the normal form takes off -/

theorem pow10_eq (n : Nat) : pow10 n = 10 ^ n := by
  show ((10 ^ n : ℕ) : ℤ) = 10 ^ n
  push_cast
  rfl

/-- The normal form of a pair that is not zero: all zeros at the end go, and the scale with them. -/
theorem normalize_spec {x : Decimal} (h : x.unscaled ≠ 0) :
    ∃ (u : ℤ) (zeros : ℕ), u % 10 ≠ 0 ∧ x.unscaled = u * 10 ^ zeros ∧
      x.normalize = ⟨u, x.scale - zeros⟩ := by
  obtain ⟨hzeros, hmore⟩ := Digits.trailingZeros_spec (Int.natAbs_ne_zero.2 h)
  have hnormal : x.normalize = ⟨x.unscaled / 10 ^ Digits.trailingZeros x.unscaled.natAbs,
      x.scale - Digits.trailingZeros x.unscaled.natAbs⟩ := by
    rw [normalize, if_neg h, ← pow10_eq]
  generalize Digits.trailingZeros x.unscaled.natAbs = zeros at hzeros hmore hnormal
  obtain ⟨u, hu⟩ : (10 : ℤ) ^ zeros ∣ x.unscaled := by
    rw [← pow10_eq]
    exact Int.natCast_dvd.2 hzeros
  have hpos : (0 : ℤ) < 10 ^ zeros := by positivity
  refine ⟨u, zeros, ?_, hu.trans (mul_comm _ _), ?_⟩
  · -- one more zero would be one more power of ten
    intro hmod
    obtain ⟨v, rfl⟩ := Int.dvd_of_emod_eq_zero hmod
    refine hmore (Int.natCast_dvd.1 ⟨v, ?_⟩)
    rw [hu]
    push_cast
    ring
  · rw [hnormal, hu, Int.mul_ediv_cancel_left u hpos.ne']

theorem isNormal_normalize (x : Decimal) : x.normalize.IsNormal := by
  by_cases h : x.unscaled = 0
  · rw [normalize, if_pos h]
    exact Or.inl rfl
  · obtain ⟨u, zeros, hu, -, hnormal⟩ := normalize_spec h
    rw [hnormal]
    exact Or.inr hu

/-- A unit at one scale in units at a larger one. -/
theorem zpow_neg_scale {x y : Decimal} {k : ℕ} (hscale : y.scale = x.scale + k) :
    (10 : ℚ) ^ (-x.scale) = 10 ^ k * 10 ^ (-y.scale) := by
  rw [hscale, ← zpow_natCast, ← zpow_add₀ (by norm_num)]
  congr 1
  ring

/-- Zeros at the end and as much more scale make no difference. -/
theorem toRat_eq_of_unscaled {x y : Decimal} {k : ℕ} (hunscaled : y.unscaled = x.unscaled * 10 ^ k)
    (hscale : y.scale = x.scale + k) : y.toRat = x.toRat := by
  rw [toRat, toRat, hunscaled, zpow_neg_scale hscale]
  push_cast
  ring

/-- The normal form denotes the same number. -/
theorem toRat_normalize (x : Decimal) : x.normalize.toRat = x.toRat := by
  by_cases h : x.unscaled = 0
  · rw [normalize, if_pos h, toRat_zero, toRat, h, Int.cast_zero, zero_mul]
  · obtain ⟨u, zeros, -, hx, hnormal⟩ := normalize_spec h
    rw [hnormal]
    exact (toRat_eq_of_unscaled hx (sub_add_cancel _ _).symm).symm

/-- The normal form has the same leading exponent. -/
theorem inRange_normalize (x : Decimal) : x.normalize.inRange = x.inRange := by
  by_cases h : x.unscaled = 0
  · have hzero : x.inRange = true := by
      rw [inRange, h]
      rfl
    rw [normalize, if_pos h, hzero]
    rfl
  · obtain ⟨u, zeros, hu, hx, hnormal⟩ := normalize_spec h
    have hu0 : u ≠ 0 := by
      rintro rfl
      exact hu rfl
    have hcount : Digits.count x.unscaled.natAbs = Digits.count u.natAbs + zeros := by
      rw [hx, Int.natAbs_mul, Int.natAbs_pow]
      exact Digits.count_mul_pow (Int.natAbs_ne_zero.2 hu0) zeros
    have hlead : x.normalize.leadExponent = x.leadExponent := by
      rw [hnormal, leadExponent, leadExponent, hcount]
      push_cast
      ring
    rw [inRange, inRange, hlead, hnormal, beq_eq_false_iff_ne.2 hu0, beq_eq_false_iff_ne.2 h]

/-! ## One pair for each number -/

/-- At a common scale, pairs for one number have one unscaled integer. -/
theorem unscaled_of_toRat_eq {x y : Decimal} {k : ℕ} (h : x.toRat = y.toRat)
    (hscale : y.scale = x.scale + k) : y.unscaled = x.unscaled * 10 ^ k := by
  have hne : (10 : ℚ) ^ (-y.scale) ≠ 0 := zpow_ne_zero _ (by norm_num)
  rw [toRat, toRat, zpow_neg_scale hscale, ← mul_assoc] at h
  exact_mod_cast (mul_right_cancel₀ hne h).symm

/-- Of two pairs in normal form for one number, neither has the larger scale. -/
theorem eq_of_toRat_eq_of_le {x y : Decimal} (hx : x.IsNormal) (hy : y.IsNormal)
    (h : x.toRat = y.toRat) (hle : x.scale ≤ y.scale) : x = y := by
  obtain ⟨k, hk⟩ := Int.le.dest hle
  have hunscaled := unscaled_of_toRat_eq h hk.symm
  rcases hx with rfl | hx
  · -- zero has one normal form
    rcases hy with rfl | hy
    · rfl
    · rw [show y.unscaled = 0 from hunscaled.trans (zero_mul _)] at hy
      exact absurd rfl hy
  · cases k with
    | zero =>
      rw [pow_zero, mul_one] at hunscaled
      rw [Nat.cast_zero, add_zero] at hk
      cases x
      cases y
      simp_all
    | succ k =>
      -- a zero at the end of `y`, so that `y` and then `x` are zero
      exfalso
      have hmod : y.unscaled % 10 = 0 := by
        rw [hunscaled, pow_succ, ← mul_assoc, Int.mul_emod_left]
      rcases hy with rfl | hy
      · have hzero : x.unscaled = 0 := by
          rcases mul_eq_zero.1 hunscaled.symm with hzero | hpow
          · exact hzero
          · exact absurd hpow (by positivity)
        rw [hzero] at hx
        exact hx rfl
      · exact hy hmod

/-- Pairs in normal form are equal exactly if they denote the same number. -/
theorem eq_iff_toRat_eq {x y : Decimal} (hx : x.IsNormal) (hy : y.IsNormal) :
    x = y ↔ x.toRat = y.toRat := by
  constructor
  · rintro rfl
    rfl
  · intro h
    rcases Int.le_total x.scale y.scale with hle | hle
    · exact eq_of_toRat_eq_of_le hx hy h hle
    · exact (eq_of_toRat_eq_of_le hy hx h.symm hle).symm

theorem normalize_eq_iff {x y : Decimal} : x.normalize = y.normalize ↔ x.toRat = y.toRat := by
  rw [eq_iff_toRat_eq (isNormal_normalize x) (isNormal_normalize y), toRat_normalize,
    toRat_normalize]

/-- A pair in normal form is its own normal form. -/
theorem IsNormal.normalize_eq {x : Decimal} (h : x.IsNormal) : x.normalize = x :=
  (eq_iff_toRat_eq (isNormal_normalize x) h).2 (toRat_normalize x)

/-- A number is in range whatever its pair. -/
theorem inRange_congr {x y : Decimal} (h : x.toRat = y.toRat) : x.inRange = y.inRange := by
  rw [← inRange_normalize x, normalize_eq_iff.2 h, inRange_normalize]

theorem IsNormal.unscaled_ne_zero {x : Decimal} (h : x.IsNormal) (hx : x ≠ 0) :
    x.unscaled ≠ 0 := by
  intro hzero
  rcases h with rfl | h
  · exact hx rfl
  · exact h (by rw [hzero]; rfl)

/-! ## Negative numbers -/

section Neg

variable (x : Decimal)

@[simp] theorem unscaled_neg : (-x).unscaled = -x.unscaled := rfl

@[simp] theorem scale_neg : (-x).scale = x.scale := rfl

theorem neg_neg : - -x = x := by
  show (⟨- -x.unscaled, x.scale⟩ : Decimal) = x
  rw [Int.neg_neg]

theorem toRat_neg : (-x).toRat = -x.toRat := by
  rw [toRat, toRat, unscaled_neg, scale_neg, Int.cast_neg, neg_mul]

theorem IsNormal.neg {x : Decimal} (h : x.IsNormal) : (-x).IsNormal := by
  rcases h with rfl | h
  · exact Or.inl rfl
  · refine Or.inr fun hmod => h ?_
    rw [unscaled_neg] at hmod
    omega

theorem normalize_neg : (-x).normalize = -x.normalize := by
  rw [eq_iff_toRat_eq (isNormal_normalize _) (isNormal_normalize x).neg, toRat_normalize, toRat_neg,
    toRat_neg, toRat_normalize]

theorem inRange_neg : (-x).inRange = x.inRange := by
  rw [inRange, inRange, leadExponent, leadExponent, unscaled_neg, scale_neg, Int.natAbs_neg]
  congr 1
  exact Bool.eq_iff_iff.2 (by simp)

end Neg

/-! ## Proper numbers -/

/-- A number as the program stores it. -/
structure Proper (x : Decimal) : Prop where
  normal : x.IsNormal
  inRange : x.inRange = true

theorem proper_zero : Proper 0 :=
  ⟨Or.inl rfl, rfl⟩

theorem proper_normalize {x : Decimal} (h : x.inRange = true) : x.normalize.Proper :=
  ⟨isNormal_normalize x, (inRange_normalize x).trans h⟩

/-- The negative of a number in range, brought into normal form, is proper. -/
theorem Proper.neg {x : Decimal} (h : x.Proper) : (-x).normalize.Proper :=
  proper_normalize ((inRange_neg x).trans h.inRange)

/-- A text that denotes a number denotes a proper one. -/
theorem proper_of_ofText? {s : String} {x : Decimal} (h : ofText? s = some x) : x.Proper := by
  obtain ⟨l, -, hvalue⟩ := Option.bind_eq_some_iff.1 h
  unfold Literal.value? at hvalue
  dsimp only at hvalue
  split at hvalue
  · -- beyond every exponent that its digits could make up for, only zero is in range
    split at hvalue
    · obtain rfl := Option.some.inj hvalue
      exact proper_zero
    · cases hvalue
  · split at hvalue
    · rename_i hrange
      obtain rfl := Option.some.inj hvalue
      exact ⟨isNormal_normalize _, hrange⟩
    · cases hvalue

end Spreadsheet.Decimal
