import Mathlib.Algebra.Order.Floor.Semifield
import Spreadsheet.Proofs.Decimal.Division
import Spreadsheet.Proofs.Decimal.Rounding

/-!
# Quotients are rounded twice

Long division rounds the exact quotient half up at its hundredth digit, and the cut to 28 digits
rounds the outcome once more.

Results:
* `leadShift_spec`: where the first digit of a quotient is.
* `toRat_longQuotient`: long division is rounding to `longDigits`.
* `toRat_cut`: the cut of a positive number is rounding.
* `toRat_div`: a quotient of positive numbers is rounded twice.
-/

namespace Spreadsheet.Decimal

/-- Division of natural numbers, rounded half up by the remainder. -/
theorem floor_add_half (m : ℕ) {d : ℕ} (hd : 0 < d) :
    ⌊(m : ℚ) / d + 1 / 2⌋ = (m / d : ℕ) + if d ≤ 2 * (m % d) then 1 else 0 := by
  have hd' : (0 : ℚ) < d := by exact_mod_cast hd
  have hsplit : (m : ℚ) = d * (m / d : ℕ) + (m % d : ℕ) := by
    exact_mod_cast (Nat.div_add_mod m d).symm
  have hrest := Nat.mod_lt m hd
  generalize m / d = k, m % d = r at hsplit hrest ⊢
  have hquot : (m : ℚ) / d = k + r / d := by
    rw [hsplit]
    field_simp
  rw [Int.floor_eq_iff, hquot]
  split_ifs with hround
  · have hhalf : (1 : ℚ) / 2 ≤ r / d := by
      have hround' : (d : ℚ) ≤ 2 * r := by exact_mod_cast hround
      rw [le_div_iff₀ hd']
      linarith
    have hone : (r : ℚ) / d < 1 := (div_lt_one hd').2 (by exact_mod_cast hrest)
    push_cast
    constructor <;> linarith
  · have hhalf : (r : ℚ) / d < 1 / 2 := by
      have hround' : 2 * (r : ℚ) < d := by exact_mod_cast not_le.1 hround
      rw [div_lt_iff₀ hd']
      linarith
    have hzero : (0 : ℚ) ≤ r / d := by positivity
    push_cast
    constructor <;> linarith

/-- A pair with no more digits than that denotes a number that can be written with them. -/
theorem hasDigits_toRat {x : Decimal} {digits : ℕ}
    (h : Digits.count x.unscaled.natAbs ≤ digits) : HasDigits digits x.toRat := by
  refine ⟨x.unscaled, -x.scale, ?_, rfl⟩
  have hlt : x.unscaled.natAbs < 10 ^ digits :=
    calc x.unscaled.natAbs < 10 ^ Digits.count x.unscaled.natAbs := by
          rw [Digits.count_eq_log]
          exact Nat.lt_pow_succ_log_self (by decide) _
      _ ≤ 10 ^ digits := Nat.pow_le_pow_right (by decide) h
  rw [Int.abs_eq_natAbs]
  exact_mod_cast hlt

/-! ## Long division -/

/-- The first digit of a quotient below one. -/
theorem leadShift_spec {n d : ℕ} (hn : 0 < n) (h : n < d) :
    d ≤ n * 10 ^ leadShift n d ∧ n * 10 ^ leadShift n d < 10 * d := by
  have hlog : Nat.log 10 n ≤ Nat.log 10 d := Nat.log_mono_right h.le
  have hle : 10 ^ Nat.log 10 d ≤ d := Nat.pow_log_le_self 10 (by omega)
  have hlt : d < 10 ^ (Nat.log 10 d + 1) := Nat.lt_pow_succ_log_self (by decide) d
  have hle' : 10 ^ Nat.log 10 n ≤ n := Nat.pow_log_le_self 10 (by omega)
  have hlt' : n < 10 ^ (Nat.log 10 n + 1) := Nat.lt_pow_succ_log_self (by decide) n
  obtain ⟨k, hk⟩ := Nat.exists_eq_add_of_le hlog
  have hshift : leadShift n d = if n * 10 ^ k < d then k + 1 else k := by
    simp only [leadShift, Digits.count_eq_log, hk, Nat.pow_eq]
    simp
  -- as many digits as `d` has
  have hfrom : 10 ^ Nat.log 10 d ≤ n * 10 ^ k := by
    rw [hk, pow_add]
    exact Nat.mul_le_mul_right _ hle'
  have hto : n * 10 ^ k < 10 ^ (Nat.log 10 d + 1) := by
    rw [hk, add_right_comm, pow_add _ _ k]
    exact Nat.mul_lt_mul_of_pos_right hlt' (by positivity)
  rw [pow_succ] at hlt hto
  rw [hshift]
  split_ifs with hless
  · rw [pow_succ, ← mul_assoc]
    omega
  · omega

theorem leadShift_of_le {n d : ℕ} (h : d ≤ n) : leadShift n d = 0 := by
  have hlog : Nat.log 10 d ≤ Nat.log 10 n := Nat.log_mono_right h
  have hcount : Digits.count d - Digits.count n = 0 := by
    rw [Digits.count_eq_log, Digits.count_eq_log]
    omega
  simp [leadShift, hcount, h]

/-- The number of digits that long division finds: a quotient with more digits before its point
    keeps them. -/
def longDigits (x y : Decimal) : ℕ :=
  max workingDigits (Digits.count (x.unscaled.natAbs / y.unscaled.natAbs))

/-- Long division of natural numbers finds so many places after the point that the quotient has
    the digits that are asked for. -/
theorem divDigits_spec {n d : ℕ} (hn : 0 < n) (hd : 0 < d) :
    ((divDigits n d).1 : ℤ) = ⌊((n * 10 ^ (divDigits n d).2 : ℕ) : ℚ) / d + 1 / 2⌋ ∧
      Int.log 10 ((n : ℚ) / d) + 1 - max workingDigits (Digits.count (n / d)) =
        -((divDigits n d).2 : ℤ) := by
  have hn' : (0 : ℚ) < n := by exact_mod_cast hn
  have hd' : (0 : ℚ) < d := by exact_mod_cast hd
  generalize hs : leadShift n d = shift
  generalize hw : n * 10 ^ shift / d = whole
  -- with the zeros appended the quotient is at least one
  have hone : d ≤ n * 10 ^ shift ∧
      max workingDigits (Digits.count (n / d)) = max workingDigits (Digits.count whole) := by
    rcases lt_or_ge n d with hlt | hge
    · obtain ⟨hle, hlt'⟩ := leadShift_spec hn hlt
      rw [hs] at hle hlt'
      refine ⟨hle, ?_⟩
      have hdigit : whole < 10 := hw ▸ Nat.div_lt_of_lt_mul (by rwa [mul_comm d])
      rw [Nat.div_eq_of_lt hlt, Digits.count_eq_log, Digits.count_eq_log, Nat.log_of_lt hdigit]
      rfl
    · rw [leadShift_of_le hge] at hs
      subst hs
      rw [pow_zero, mul_one] at hw ⊢
      exact ⟨hge, by rw [hw]⟩
  obtain ⟨hge, hcount⟩ := hone
  have hlog : Int.log 10 ((n : ℚ) / d) + shift = Nat.log 10 whole := by
    have hscaled : (n : ℚ) / d * 10 ^ (shift : ℤ) = ((n * 10 ^ shift : ℕ) : ℚ) / d := by
      push_cast
      rw [zpow_natCast]
      ring
    have hle : (1 : ℚ) ≤ ((n * 10 ^ shift : ℕ) : ℚ) / d := by
      rw [one_le_div hd']
      exact_mod_cast hge
    rw [← log_mul_zpow (div_pos hn' hd'), hscaled, Int.log_of_one_le_right _ hle,
      Nat.floor_div_natCast, Nat.floor_natCast, hw]
  have hplaces : (divDigits n d).2 = shift + (workingDigits - Digits.count whole) := by
    simp only [divDigits, hs, Nat.pow_eq, hw]
  constructor
  · rw [floor_add_half _ hd]
    simp only [divDigits, hs, Nat.pow_eq, hw]
    split_ifs <;> push_cast <;> ring
  · rw [hplaces, hcount, Digits.count_eq_log]
    push_cast
    omega

section Positive

variable {x y : Decimal} (hx : 0 < x.unscaled)
include hx

theorem toRat_eq_natAbs : x.toRat = x.unscaled.natAbs * 10 ^ (-x.scale) := by
  rw [toRat, Nat.cast_natAbs, abs_of_pos hx]

theorem toRat_pos : 0 < x.toRat := by
  have hpos : (0 : ℚ) < x.unscaled := by exact_mod_cast hx
  exact mul_pos hpos (by positivity)

/-- Long division rounds the exact quotient half up. -/
theorem toRat_longQuotient (hy : 0 < y.unscaled) :
    (longQuotient x y).toRat = roundTo (longDigits x y) (x.toRat / y.toRat) := by
  have hn : 0 < x.unscaled.natAbs := Int.natAbs_pos.2 hx.ne'
  have hd : 0 < y.unscaled.natAbs := Int.natAbs_pos.2 hy.ne'
  obtain ⟨hquotient, hplaces⟩ := divDigits_spec hn hd
  have hlong : longQuotient x y = ⟨(divDigits x.unscaled.natAbs y.unscaled.natAbs).1,
      x.scale - y.scale + (divDigits x.unscaled.natAbs y.unscaled.natAbs).2⟩ := by
    simp only [longQuotient, hx.ne', if_false, Int.sign_eq_one_of_pos hx,
      Int.sign_eq_one_of_pos hy, one_mul]
  have hquot : x.toRat / y.toRat =
      (x.unscaled.natAbs : ℚ) / y.unscaled.natAbs * 10 ^ (y.scale - x.scale) := by
    rw [toRat_eq_natAbs hx, toRat_eq_natAbs hy, sub_eq_add_neg, zpow_add₀ (by norm_num), zpow_neg,
      zpow_neg]
    field_simp
  have hpos : (0 : ℚ) < (x.unscaled.natAbs : ℚ) / y.unscaled.natAbs := by positivity
  have hunit : unit (longDigits x y) (x.toRat / y.toRat) =
      10 ^ (-(longQuotient x y).scale) := by
    rw [unit, hquot, log_mul_zpow hpos, hlong, longDigits]
    congr 1
    dsimp only
    omega
  generalize hdiv : divDigits x.unscaled.natAbs y.unscaled.natAbs = r at hquotient hlong
  have hscaled : x.toRat / y.toRat / unit (longDigits x y) (x.toRat / y.toRat) =
      ((x.unscaled.natAbs * 10 ^ r.2 : ℕ) : ℚ) / y.unscaled.natAbs := by
    rw [hunit, hquot, hlong, div_eq_mul_inv (_ * _), ← zpow_neg, mul_assoc,
      ← zpow_add₀ (by norm_num)]
    push_cast
    rw [← zpow_natCast, mul_div_right_comm]
    congr 2
    ring
  rw [roundTo, roundOn, hscaled, ← hquotient, hunit, toRat]
  rw [hlong]

/-! ## The cut -/

/-- What is kept of a positive number with more digits than that is rounded half up. -/
theorem unscaled_cut (digits : ℕ) :
    (cut digits x).unscaled =
      ⌊(x.unscaled.natAbs : ℚ) / (10 ^ x.extraDigits digits : ℕ) + 1 / 2⌋ := by
  rw [floor_add_half _ (by positivity), cut_eq]
  simp only [Int.sign_eq_one_of_pos hx, one_mul, hx, true_and, LeavesHalf]

/-- The cut of a positive number rounds it half up. -/
theorem toRat_cut {digits : ℕ} (hd : digits ≠ 0) :
    (cut digits x).toRat = roundTo digits x.toRat := by
  have hpos := toRat_pos hx
  rcases le_or_gt (Digits.count x.unscaled.natAbs) digits with hcount | hcount
  · -- all digits are kept
    have hcut : cut digits x = x := by
      rw [cut]
      exact if_pos (Nat.sub_eq_zero_of_le hcount)
    rw [hcut, (nearest_roundTo hpos hd).eq_of_hasDigits (hasDigits_toRat hcount)]
  · have hscale : (cut digits x).scale = x.scale - x.extraDigits digits := by
      rw [cut_eq]
    have hunit : unit digits x.toRat = 10 ^ (-(cut digits x).scale) := by
      have hlead := leadExponent_eq_log hx.ne'
      rw [abs_of_pos hpos, leadExponent] at hlead
      rw [unit, ← hlead, hscale, extraDigits]
      congr 1
      omega
    have hscaled : x.toRat / unit digits x.toRat =
        (x.unscaled.natAbs : ℚ) / (10 ^ x.extraDigits digits : ℕ) := by
      rw [hunit, hscale, toRat_eq_natAbs hx, neg_sub, sub_eq_add_neg, zpow_add₀ (by norm_num),
        zpow_natCast, mul_div_mul_right _ _ (by positivity)]
      push_cast
      rfl
    rw [roundTo, roundOn, hscaled, ← unscaled_cut hx, hunit, toRat]

/-! ## Quotients -/

/-- The quotient of positive numbers is rounded to the digits of long division and then to those
    that a quotient keeps. -/
theorem toRat_div (hy : 0 < y.unscaled) :
    (x / y).toRat =
      roundTo quotientDigits (roundTo (longDigits x y) (x.toRat / y.toRat)) := by
  have hq : 0 < x.toRat / y.toRat := div_pos (toRat_pos hx) (toRat_pos hy)
  have hlong := toRat_longQuotient hx hy
  have hpos : 0 < (longQuotient x y).unscaled := by
    have hz : 0 < roundTo (longDigits x y) (x.toRat / y.toRat) :=
      roundTo_pos hq (Nat.ne_of_gt (Nat.lt_of_lt_of_le (by decide) (le_max_left _ _)))
    rw [← hlong, toRat] at hz
    exact_mod_cast pos_of_mul_pos_left hz (by positivity)
  show (cut quotientDigits (longQuotient x y)).toRat = _
  rw [toRat_cut hpos (by decide), hlong]

end Positive

end Spreadsheet.Decimal
