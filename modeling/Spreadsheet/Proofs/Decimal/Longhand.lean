import Spreadsheet.Proofs.Decimal.Exact

/-!
# Division digit by digit

Long division as it is done by hand: zeros are appended to the dividend until the divisor goes into
it, and then one digit after the other is brought down, until nothing is left or the quotient has
`workingDigits` digits. `Decimal.longQuotient` brings down all digits at once. It goes on where
nothing is left, so its quotient may have zeros at the end that the other has not, and it has no
shortcuts.

Results:
* `longhand`: the division by hand, with its shortcuts.
* `toRat_longhand`: it finds the number that `longQuotient` finds.
* `toRat_cut_congr`: zeros at the end make no difference to the cut.
* `toRat_cut_longhand`: the two divisions give the same quotients.
-/

namespace Spreadsheet.Decimal

/-! ## By hand -/

/-- Zeros are appended to a positive `n` until `d` goes into it; `k` counts them. -/
def appendZeros (n d k : ℕ) : ℕ × ℕ :=
  if 0 < n ∧ n < d then appendZeros (10 * n) d (k + 1) else (n, k)
termination_by d - n
decreasing_by omega

/-- Where a division stands. -/
structure Stage where
  /-- The digits found. -/
  quotient : ℕ
  /-- What is left of the dividend. -/
  remainder : ℕ
  /-- The number of zeros that have been appended to the dividend. -/
  places : ℕ

/-- One more zero is appended, and a digit is found. -/
def Stage.next (d : ℕ) (s : Stage) : Stage :=
  ⟨10 * s.quotient + 10 * s.remainder / d, 10 * s.remainder % d, s.places + 1⟩

/-- Digits are found until nothing is left, but no more than so many. -/
def Stage.run (d : ℕ) : (digits : ℕ) → Stage → Stage
  | 0, s => s
  | digits + 1, s => if s.remainder = 0 then s else (s.next d).run d digits

/-- What is left rounds the last digit half up. -/
def Stage.rounded (d : ℕ) (s : Stage) : ℕ :=
  if d ≤ 2 * s.remainder then s.quotient + 1 else s.quotient

/-- The division of positive numbers: the quotient and the number of places after its point. -/
def divLonghand (n d : ℕ) : ℕ × ℕ :=
  let (n, k) := appendZeros n d 0
  let s := Stage.run d (workingDigits - Digits.count (n / d)) ⟨n / d, n % d, k⟩
  (s.rounded d, s.places)

/-- The quotient of two decimals to `workingDigits` digits. A division by one gives the dividend, a
    division of equal unscaled integers one at the scale of the quotient. -/
def longhand (x y : Decimal) : Decimal :=
  if x.unscaled = 0 ∨ y = ⟨1, 0⟩ then x
  else if x.unscaled = y.unscaled then ⟨1, x.scale - y.scale⟩
  else
    let (quotient, places) := divLonghand x.unscaled.natAbs y.unscaled.natAbs
    ⟨x.unscaled.sign * y.unscaled.sign * quotient, x.scale - y.scale + places⟩

/-! ## The first digit -/

section Zeros

variable {n d : ℕ}

/-- With a larger number of zeros than gives one digit there are more. -/
theorem le_of_digit {j k : ℕ} (hle : d ≤ n * 10 ^ j) (hlt : n * 10 ^ k < 10 * d) : k ≤ j := by
  by_contra hjk
  obtain ⟨i, rfl⟩ := Nat.exists_eq_add_of_lt (not_le.1 hjk)
  have hten : 10 * d ≤ n * 10 ^ (j + i + 1) := by
    calc 10 * d ≤ 10 * (n * 10 ^ j) := Nat.mul_le_mul_left _ hle
      _ ≤ 10 * (n * 10 ^ j) * 10 ^ i := Nat.le_mul_of_pos_right _ (by positivity)
      _ = n * 10 ^ (j + i + 1) := by ring
  omega

/-- One zero less is to be appended after the first. -/
theorem leadShift_eq_succ (hn : 0 < n) (h : n < d) : leadShift n d = leadShift (10 * n) d + 1 := by
  obtain ⟨hle, hlt⟩ := leadShift_spec hn h
  have hshift (k : ℕ) : n * 10 ^ (k + 1) = 10 * n * 10 ^ k := by ring
  have hnext : d ≤ n * 10 ^ (leadShift (10 * n) d + 1) ∧
      n * 10 ^ (leadShift (10 * n) d + 1) < 10 * d := by
    rw [hshift]
    rcases lt_or_ge (10 * n) d with hten | hten
    · exact leadShift_spec (by omega) hten
    · rw [leadShift_of_le hten]
      omega
  exact Nat.le_antisymm (le_of_digit hnext.1 hlt) (le_of_digit hle hnext.2)

theorem appendZeros_eq (hn : 0 < n) (k : ℕ) :
    appendZeros n d k = (n * 10 ^ leadShift n d, k + leadShift n d) := by
  fun_induction appendZeros n d k with
  | case1 n k h ih =>
    rw [ih (by omega), leadShift_eq_succ h.1 h.2]
    congr 1
    · ring
    · ring
  | case2 n k h =>
    rw [leadShift_of_le (by omega), pow_zero, mul_one, add_zero]

end Zeros

/-! ## The further digits -/

/-- The division of `n` by `d` when `k` zeros have been appended. -/
def stage (n d k : ℕ) : Stage :=
  ⟨n * 10 ^ k / d, n * 10 ^ k % d, k⟩

section Stages

variable {n d : ℕ} (hd : 0 < d)
include hd

theorem next_stage (k : ℕ) : (stage n d k).next d = stage n d (k + 1) := by
  have hsplit : n * 10 ^ (k + 1) = d * (10 * (n * 10 ^ k / d)) + 10 * (n * 10 ^ k % d) := by
    calc n * 10 ^ (k + 1) = 10 * (n * 10 ^ k) := by ring
      _ = 10 * (d * (n * 10 ^ k / d) + n * 10 ^ k % d) := by rw [Nat.div_add_mod]
      _ = d * (10 * (n * 10 ^ k / d)) + 10 * (n * 10 ^ k % d) := by ring
  rw [stage, stage, Stage.next, hsplit, Nat.mul_add_div hd, Nat.mul_add_mod]

/-- The division stops after so many digits, or before if nothing is left. -/
theorem run_stage (digits k : ℕ) :
    ∃ places more, (stage n d k).run d digits = stage n d places ∧ k + digits = places + more ∧
      (more = 0 ∨ (stage n d places).remainder = 0) := by
  induction digits generalizing k with
  | zero => exact ⟨k, 0, rfl, rfl, Or.inl rfl⟩
  | succ digits ih =>
    rw [Stage.run]
    split
    · rename_i hzero
      exact ⟨k, digits + 1, rfl, rfl, Or.inr hzero⟩
    · obtain ⟨places, more, hrun, hplaces, hstop⟩ := ih (k + 1)
      rw [next_stage hd]
      exact ⟨places, more, hrun, by omega, hstop⟩

/-- Further digits of a division with nothing left are zeros. -/
theorem rounded_stage_add {k : ℕ} (hzero : (stage n d k).remainder = 0) (more : ℕ) :
    (stage n d (k + more)).rounded d = (stage n d k).rounded d * 10 ^ more := by
  have hdvd : d ∣ n * 10 ^ k := Nat.dvd_of_mod_eq_zero hzero
  have hsplit : n * 10 ^ (k + more) = 10 ^ more * (n * 10 ^ k) := by ring
  have hleft : (stage n d (k + more)).remainder = 0 := by
    rw [stage, hsplit]
    exact Nat.mod_eq_zero_of_dvd (hdvd.mul_left _)
  have hquotient : (stage n d (k + more)).quotient = (stage n d k).quotient * 10 ^ more := by
    rw [stage, hsplit, Nat.mul_div_assoc _ hdvd, Nat.mul_comm]
    rfl
  rw [Stage.rounded, Stage.rounded, hleft, hzero, if_neg (by omega), if_neg (by omega), hquotient]

omit hd in
theorem divDigits_eq_stage : (divDigits n d).1 = (stage n d (divDigits n d).2).rounded d :=
  rfl

/-- A quotient without a remainder gets zeros only. -/
theorem divDigits_of_dvd (h : d ∣ n) : (divDigits n d).1 = n / d * 10 ^ (divDigits n d).2 := by
  have hzero : (stage n d 0).remainder = 0 := by
    rw [stage, pow_zero, mul_one]
    exact Nat.mod_eq_zero_of_dvd h
  have hwhole : (stage n d 0).rounded d = n / d := by
    rw [Stage.rounded, hzero, if_neg (by omega), stage, pow_zero, mul_one]
  have hzeros := rounded_stage_add hd hzero (divDigits n d).2
  rwa [zero_add, hwhole, ← divDigits_eq_stage] at hzeros

/-- By hand there may be fewer zeros at the end. -/
theorem divDigits_eq (hn : 0 < n) :
    ∃ more, (divDigits n d).1 = (divLonghand n d).1 * 10 ^ more ∧
      (divDigits n d).2 = (divLonghand n d).2 + more := by
  generalize hshift : leadShift n d = shift
  generalize hdigits : workingDigits - Digits.count (n * 10 ^ shift / d) = digits
  obtain ⟨places, more, hrun, hplaces, hstop⟩ := run_stage hd (n := n) digits shift
  have hhand : divLonghand n d = ((stage n d places).rounded d, places) := by
    rw [divLonghand, appendZeros_eq hn, hshift]
    dsimp only
    rw [hdigits, zero_add, ← stage, hrun]
    rfl
  have hall : divDigits n d = ((stage n d (places + more)).rounded d, places + more) := by
    rw [← hplaces, ← hdigits, ← hshift]
    rfl
  rw [hhand, hall]
  refine ⟨more, ?_, rfl⟩
  rcases hstop with rfl | hzero
  · rw [add_zero, pow_zero, mul_one]
  · exact rounded_stage_add hd hzero more

end Stages

/-! ## The same quotients -/

section Quotients

variable {x y : Decimal}

theorem longQuotient_of_ne_zero (hx : x.unscaled ≠ 0) (y : Decimal) :
    longQuotient x y =
      ⟨x.unscaled.sign * y.unscaled.sign * (divDigits x.unscaled.natAbs y.unscaled.natAbs).1,
        x.scale - y.scale + (divDigits x.unscaled.natAbs y.unscaled.natAbs).2⟩ :=
  if_neg hx

/-- A quotient of unscaled integers without a remainder is exact. -/
theorem toRat_longQuotient_of_dvd (hx : x.unscaled ≠ 0) (hy : y.unscaled ≠ 0) {q : ℤ}
    (h : x.unscaled = y.unscaled * q) :
    (longQuotient x y).toRat = (⟨q, x.scale - y.scale⟩ : Decimal).toRat := by
  have hd : 0 < y.unscaled.natAbs := Int.natAbs_pos.2 hy
  have hdvd : y.unscaled.natAbs ∣ x.unscaled.natAbs := Int.natAbs_dvd_natAbs.2 ⟨q, h⟩
  have hnatAbs : x.unscaled.natAbs / y.unscaled.natAbs = q.natAbs := by
    rw [h, Int.natAbs_mul, Nat.mul_div_cancel_left _ hd]
  have hsign : x.unscaled.sign * y.unscaled.sign * q.natAbs = q := by
    rw [← Int.sign_mul, h, mul_right_comm, Int.sign_mul,
      Int.sign_eq_one_of_pos (mul_self_pos.2 hy), one_mul, Int.sign_mul_natAbs]
  rw [longQuotient_of_ne_zero hx]
  refine toRat_eq_of_unscaled (k := (divDigits x.unscaled.natAbs y.unscaled.natAbs).2) ?_ rfl
  rw [divDigits_of_dvd hd hdvd, hnatAbs]
  push_cast
  rw [← mul_assoc, ← Int.natCast_natAbs, hsign]

/-- By hand the same number is found. -/
theorem toRat_longhand (hy : y.unscaled ≠ 0) : (longhand x y).toRat = (longQuotient x y).toRat := by
  by_cases hx : x.unscaled = 0
  · rw [longhand, if_pos (Or.inl hx), longQuotient_of_zero hx, toRat_zero, toRat_eq_zero_iff.2 hx]
  rw [longhand]
  split_ifs with hone hsame
  · -- a division by one
    obtain rfl : y = ⟨1, 0⟩ := hone.resolve_left hx
    rw [toRat_longQuotient_of_dvd hx hy (one_mul _).symm, sub_zero]
  · -- equal unscaled integers
    rw [toRat_longQuotient_of_dvd hx hy (hsame.trans (mul_one _).symm)]
  · obtain ⟨more, hquotient, hplaces⟩ :=
      divDigits_eq (Int.natAbs_pos.2 hy) (Int.natAbs_pos.2 hx)
    rw [longQuotient_of_ne_zero hx]
    refine (toRat_eq_of_unscaled (k := more) ?_ ?_).symm
    · rw [hquotient]
      push_cast
      ring
    · rw [hplaces]
      push_cast
      ring

end Quotients

section Cut

variable {digits : ℕ} {x y : Decimal}

/-- Zeros after the digits that are kept make no difference. -/
theorem cut_eq_of_unscaled {k : ℕ} (hx : x.unscaled ≠ 0)
    (hcount : digits ≤ Digits.count x.unscaled.natAbs)
    (hunscaled : y.unscaled = x.unscaled * 10 ^ k) (hscale : y.scale = x.scale + k) :
    cut digits y = cut digits x := by
  have hpow : 0 < 10 ^ k := by positivity
  have hnatAbs : y.unscaled.natAbs = x.unscaled.natAbs * 10 ^ k := by
    rw [hunscaled, Int.natAbs_mul, Int.natAbs_pow]
    rfl
  have hextra : y.extraDigits digits = x.extraDigits digits + k := by
    rw [extraDigits, extraDigits, hnatAbs, Digits.count_mul_pow (Int.natAbs_ne_zero.2 hx)]
    omega
  have hhalf : y.LeavesHalf digits ↔ x.LeavesHalf digits := by
    rw [LeavesHalf, LeavesHalf, hextra, hnatAbs, pow_add, Nat.mul_mod_mul_right, ← mul_assoc,
      Nat.mul_le_mul_right_iff hpow]
  have hsign : y.unscaled.sign = x.unscaled.sign := by
    rw [hunscaled, Int.sign_mul, Int.sign_eq_one_of_pos (a := 10 ^ k) (by positivity), mul_one]
  have hpositive : 0 < y.unscaled ↔ 0 < x.unscaled := by
    rw [hunscaled, mul_pos_iff_of_pos_right (by positivity)]
  have hplaces : y.scale - (x.extraDigits digits + k : ℕ) = x.scale - x.extraDigits digits := by
    omega
  rw [cut_eq, cut_eq, hextra, hnatAbs, pow_add, Nat.mul_div_mul_right _ _ hpow, hsign, hplaces]
  simp only [hhalf, hpositive]

/-- The cut of a number does not depend on its pair. -/
theorem toRat_cut_congr (hd : digits ≠ 0) (h : x.toRat = y.toRat) :
    (cut digits x).toRat = (cut digits y).toRat := by
  wlog hle : x.scale ≤ y.scale generalizing x y
  · exact (this h.symm (by omega)).symm
  obtain ⟨k, hk⟩ := Int.le.dest hle
  rcases le_or_gt (Digits.count x.unscaled.natAbs) digits with hcount | hcount
  · -- the number needs no more digits than are kept
    have hx := hasDigits_toRat hcount
    rw [toRat_cut_of_hasDigits hd hx, toRat_cut_of_hasDigits hd (h ▸ hx), h]
  · have hx : x.unscaled ≠ 0 := by
      intro hzero
      rw [hzero] at hcount
      exact hd (Nat.lt_one_iff.1 hcount)
    rw [cut_eq_of_unscaled hx hcount.le (unscaled_of_toRat_eq h hk.symm) hk.symm]

end Cut

/-- The two divisions give the same quotients. -/
theorem toRat_cut_longhand {x y : Decimal} (hy : y.unscaled ≠ 0) :
    (cut quotientDigits (longhand x y)).toRat = (x / y).toRat :=
  toRat_cut_congr (by decide) (toRat_longhand hy)

end Spreadsheet.Decimal
