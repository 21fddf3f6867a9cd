import Mathlib.Tactic.FieldSimp
import Mathlib.Tactic.Linarith
import Spreadsheet.Proofs.Decimal.Magnitude

/-!
# Rounding to significant digits

A positive number is rounded half up at a digit counted from its first one. The result is the
nearest number with so many digits, and the larger of two that are equally near. Rounding twice, at
a far digit and then at a near one, is not always rounding once: a number just below the midpoint of
two neighbours is first brought up to the midpoint and then to the upper neighbour.

Results:
* `Nearest`: what it means to be correctly rounded; `Nearest.unique`: there is one such number.
* `nearest_roundTo`: rounding half up finds it.
* `roundTo_roundTo`: what two roundings find.
* `nearest_roundTo_roundTo_iff`: the numbers for which that is correctly rounded.
-/

namespace Spreadsheet.Decimal

/-! ## Multiples of a unit -/

/-- The multiple of `u` next to `q`, the upper one if two are equally near. -/
def roundOn (u q : ℚ) : ℚ :=
  ⌊q / u + 1 / 2⌋ * u

section Multiples

variable {u q : ℚ} (hu : 0 < u)
include hu

theorem roundOn_eq_iff {k : ℤ} :
    roundOn u q = k * u ↔ (k - 1 / 2) * u ≤ q ∧ q < (k + 1 / 2) * u := by
  rw [roundOn, mul_left_inj' hu.ne', Int.cast_inj, Int.floor_eq_iff, ← le_div_iff₀ hu,
    ← div_lt_iff₀ hu]
  constructor
  · rintro ⟨hle, hlt⟩
    constructor <;> linarith
  · rintro ⟨hle, hlt⟩
    constructor <;> linarith

/-- A multiple of the unit stays as it is. -/
theorem roundOn_mul (k : ℤ) : roundOn u (k * u) = k * u := by
  rw [roundOn_eq_iff hu]
  constructor <;> nlinarith

/-- A multiple of the unit is passed exactly if the number passes the midpoint below it. -/
theorem le_roundOn_iff {k : ℤ} : k * u ≤ roundOn u q ↔ k * u - u / 2 ≤ q := by
  rw [roundOn, mul_le_mul_iff_of_pos_right hu, Int.cast_le, Int.le_floor, ← sub_le_iff_le_add,
    le_div_iff₀ hu, sub_mul, one_div, inv_mul_eq_div]

/-- A multiple of the unit that lies above a number is not passed. -/
theorem roundOn_le {k : ℤ} (h : q ≤ k * u) : roundOn u q ≤ k * u := by
  rw [roundOn, mul_le_mul_iff_of_pos_right hu, Int.cast_le, ← Int.lt_add_one_iff, Int.floor_lt]
  have hle : q / u ≤ k := (div_le_iff₀ hu).2 h
  push_cast
  linarith

/-- The two multiples around a number and the midpoint between them decide how it is rounded. -/
theorem roundOn_eq {k : ℤ} (hle : k * u ≤ q) (hle' : q ≤ k * u + u) :
    roundOn u q = if k * u + u / 2 ≤ q then k * u + u else k * u := by
  split
  · rename_i hmid
    have hnext := roundOn_eq_iff hu (q := q) (k := k + 1)
    push_cast at hnext
    rw [add_one_mul] at hnext
    rw [hnext]
    constructor <;> nlinarith
  · rename_i hmid
    rw [roundOn_eq_iff hu]
    constructor <;> nlinarith

/-- No multiple of the unit is nearer. -/
theorem abs_sub_roundOn_le (k : ℤ) : |q - roundOn u q| ≤ |q - k * u| := by
  obtain ⟨n, hn⟩ : ∃ n : ℤ, roundOn u q = n * u := ⟨_, rfl⟩
  obtain ⟨hle, hlt⟩ := (roundOn_eq_iff hu).1 hn
  rw [hn]
  have hhalf : |q - n * u| ≤ u / 2 := abs_le.2 (by constructor <;> nlinarith)
  rcases lt_trichotomy k n with hk | rfl | hk
  · -- a lower multiple is at least half a unit away
    have hk' : (k : ℚ) + 1 ≤ n := by exact_mod_cast hk
    exact hhalf.trans (le_abs.2 (Or.inl (by nlinarith)))
  · exact le_rfl
  · have hk' : (n : ℚ) + 1 ≤ k := by exact_mod_cast hk
    exact hhalf.trans (le_abs.2 (Or.inr (by nlinarith)))

/-- A multiple of the unit that is as near is not larger. -/
theorem le_roundOn_of_abs_eq {k : ℤ} (h : |q - k * u| = |q - roundOn u q|) :
    k * u ≤ roundOn u q := by
  obtain ⟨n, hn⟩ : ∃ n : ℤ, roundOn u q = n * u := ⟨_, rfl⟩
  obtain ⟨hle, hlt⟩ := (roundOn_eq_iff hu).1 hn
  rw [hn] at h ⊢
  by_contra hlt'
  have hk : (n : ℚ) + 1 ≤ k := by
    have hnk : n < k := by exact_mod_cast lt_of_mul_lt_mul_right (not_le.1 hlt') hu.le
    exact_mod_cast hnk
  have hfar : u / 2 < |q - k * u| := lt_abs.2 (Or.inr (by nlinarith))
  have hnear : |q - n * u| ≤ u / 2 := abs_le.2 (by constructor <;> nlinarith)
  linarith

end Multiples

/-! ## Correct rounding -/

/-- The number can be written with so many significant digits. -/
def HasDigits (digits : ℕ) (z : ℚ) : Prop :=
  ∃ (m : ℤ) (e : ℤ), |m| < 10 ^ digits ∧ z = m * 10 ^ e

theorem HasDigits.mono {digits more : ℕ} {z : ℚ} (h : HasDigits digits z) (hle : digits ≤ more) :
    HasDigits more z := by
  obtain ⟨m, e, hm, hz⟩ := h
  exact ⟨m, e, hm.trans_le (pow_le_pow_right₀ (by norm_num) hle), hz⟩

/-- Of the numbers with so many significant digits, `z` is the nearest to `q`, and the largest of
    those that are as near. -/
structure Nearest (digits : ℕ) (q z : ℚ) : Prop where
  hasDigits : HasDigits digits z
  abs_le : ∀ w, HasDigits digits w → |q - z| ≤ |q - w|
  le_of_abs_eq : ∀ w, HasDigits digits w → |q - w| = |q - z| → w ≤ z

/-- A number has one correctly rounded value. -/
theorem Nearest.unique {digits : ℕ} {q z w : ℚ} (hz : Nearest digits q z)
    (hw : Nearest digits q w) : z = w := by
  have heq : |q - z| = |q - w| :=
    le_antisymm (hz.abs_le w hw.hasDigits) (hw.abs_le z hz.hasDigits)
  exact le_antisymm (hw.le_of_abs_eq z hz.hasDigits heq) (hz.le_of_abs_eq w hw.hasDigits heq.symm)

/-- A number with so many digits is its own rounded value. -/
theorem Nearest.eq_of_hasDigits {digits : ℕ} {q z : ℚ} (h : Nearest digits q z)
    (hq : HasDigits digits q) : z = q := by
  have hle := h.abs_le q hq
  rw [sub_self, abs_zero] at hle
  exact (sub_eq_zero.1 (abs_nonpos_iff.1 hle)).symm

/-! ## Rounding half up -/

/-- One unit of the last of the first `digits` digits of a positive number. -/
def unit (digits : ℕ) (q : ℚ) : ℚ :=
  10 ^ (Int.log 10 q + 1 - digits)

/-- A positive number rounded half up at the last of its first `digits` digits. -/
def roundTo (digits : ℕ) (q : ℚ) : ℚ :=
  roundOn (unit digits q) q

theorem unit_pos (digits : ℕ) (q : ℚ) : 0 < unit digits q := by
  rw [unit]
  positivity

/-- The power of ten at the first digit is a multiple of the unit. -/
theorem zpow_log_eq {digits : ℕ} (hd : digits ≠ 0) (q : ℚ) :
    (10 : ℚ) ^ Int.log 10 q = ((10 ^ (digits - 1) : ℤ) : ℚ) * unit digits q := by
  obtain ⟨d, rfl⟩ := Nat.exists_eq_succ_of_ne_zero hd
  push_cast
  rw [unit, ← zpow_natCast, ← zpow_add₀ (by norm_num)]
  congr 1
  simp

/-- So is the power of ten before the first digit. -/
theorem zpow_log_succ_eq (digits : ℕ) (q : ℚ) :
    (10 : ℚ) ^ (Int.log 10 q + 1) = ((10 ^ digits : ℤ) : ℚ) * unit digits q := by
  push_cast
  rw [unit, ← zpow_natCast, ← zpow_add₀ (by norm_num)]
  congr 1
  ring

/-- A unit is a multiple of the units of later digits. -/
theorem unit_eq_mul {near far : ℕ} (h : near ≤ far) (q : ℚ) :
    unit near q = ((10 ^ (far - near) : ℤ) : ℚ) * unit far q := by
  push_cast
  rw [unit, unit, ← zpow_natCast, ← zpow_add₀ (by norm_num), Nat.cast_sub h]
  congr 1
  ring

theorem hasDigits_mul_zpow {digits : ℕ} (hd : digits ≠ 0) {m : ℤ} (hm : |m| ≤ 10 ^ digits)
    (e : ℤ) : HasDigits digits (m * 10 ^ e) := by
  have hten : (1 : ℤ) < 10 ^ digits := one_lt_pow₀ (by norm_num) hd
  rcases hm.lt_or_eq with hlt | heq
  · exact ⟨m, e, hlt, rfl⟩
  · -- a power of ten has one digit
    have hsplit (s : ℤ) : ((s * 10 ^ digits : ℤ) : ℚ) * 10 ^ e = s * 10 ^ (digits + e) := by
      rw [zpow_add₀ (by norm_num), zpow_natCast]
      push_cast
      ring
    rcases (abs_eq (by positivity)).1 heq with rfl | rfl
    · exact ⟨1, digits + e, by simpa using hten, by simpa using hsplit 1⟩
    · exact ⟨-1, digits + e, by simpa using hten, by simpa using hsplit (-1)⟩

/-- A number with so many digits is a multiple of the unit of `q`, or it is smaller than every
    number that starts at the first digit of `q`. -/
theorem HasDigits.eq_mul_or_lt {digits : ℕ} {w : ℚ} (h : HasDigits digits w) (q : ℚ) :
    (∃ k : ℤ, w = k * unit digits q) ∨ w < 10 ^ Int.log 10 q := by
  obtain ⟨m, e, hm, rfl⟩ := h
  rcases le_or_gt (Int.log 10 q + 1 - digits) e with he | he
  · left
    obtain ⟨k, rfl⟩ := Int.le.dest he
    refine ⟨m * 10 ^ k, ?_⟩
    rw [unit, zpow_add₀ (by norm_num), zpow_natCast]
    push_cast
    ring
  · right
    have hm' : (m : ℚ) < 10 ^ (digits : ℤ) := by
      rw [zpow_natCast]
      exact_mod_cast lt_of_abs_lt hm
    calc (m : ℚ) * 10 ^ e < 10 ^ (digits : ℤ) * 10 ^ e :=
          mul_lt_mul_of_pos_right hm' (by positivity)
      _ = 10 ^ (digits + e) := (zpow_add₀ (by norm_num) _ _).symm
      _ ≤ 10 ^ Int.log 10 q := zpow_le_zpow_right₀ (by norm_num) (by omega)

section Positive

variable {digits : ℕ} {q : ℚ} (hq : 0 < q)
include hq

/-- Rounding does not leave the decade of a number. -/
theorem roundTo_bounds (hd : digits ≠ 0) :
    10 ^ Int.log 10 q ≤ roundTo digits q ∧ roundTo digits q ≤ 10 ^ (Int.log 10 q + 1) := by
  have hu := unit_pos digits q
  rw [zpow_log_eq hd, zpow_log_succ_eq digits, roundTo, le_roundOn_iff hu, ← zpow_log_eq hd]
  refine ⟨by linarith [zpow_log_le hq], roundOn_le hu ?_⟩
  rw [← zpow_log_succ_eq]
  exact (lt_zpow_log hq).le

theorem roundTo_pos (hd : digits ≠ 0) : 0 < roundTo digits q :=
  lt_of_lt_of_le (by positivity) (roundTo_bounds hq hd).1

/-- Rounding half up finds the nearest number with so many digits. -/
theorem nearest_roundTo (hd : digits ≠ 0) : Nearest digits q (roundTo digits q) := by
  have hu := unit_pos digits q
  have hfirst : |q - roundTo digits q| ≤ q - 10 ^ Int.log 10 q := by
    rw [← abs_of_nonneg (sub_nonneg.2 (zpow_log_le hq)), zpow_log_eq hd]
    exact abs_sub_roundOn_le hu _
  have hsmall {w : ℚ} (hw : w < 10 ^ Int.log 10 q) : |q - roundTo digits q| < |q - w| :=
    hfirst.trans_lt ((sub_lt_sub_left hw q).trans_le (le_abs_self _))
  refine ⟨?_, ?_, ?_⟩
  · have hle' := (roundTo_bounds hq hd).2
    rw [zpow_log_succ_eq digits, roundTo, roundOn, mul_le_mul_iff_of_pos_right hu] at hle'
    have hnonneg : (0 : ℚ) < ⌊q / unit digits q + 1 / 2⌋ :=
      pos_of_mul_pos_left (roundTo_pos hq hd) hu.le
    refine hasDigits_mul_zpow hd ?_ _
    rw [abs_of_nonneg (by exact_mod_cast hnonneg.le)]
    exact_mod_cast hle'
  · intro w hw
    rcases hw.eq_mul_or_lt q with ⟨k, rfl⟩ | hlt
    · exact abs_sub_roundOn_le hu k
    · exact (hsmall hlt).le
  · intro w hw heq
    rcases hw.eq_mul_or_lt q with ⟨k, rfl⟩ | hlt
    · exact le_roundOn_of_abs_eq hu heq
    · exact absurd heq (hsmall hlt).ne'

/-- The nearest number with so many digits is the one that rounding half up finds. -/
theorem nearest_iff (hd : digits ≠ 0) {z : ℚ} : Nearest digits q z ↔ z = roundTo digits q := by
  constructor
  · intro hz
    exact hz.unique (nearest_roundTo hq hd)
  · rintro rfl
    exact nearest_roundTo hq hd

end Positive

/-! ## Rounding twice -/

/-- The number cut after its first `digits` digits. -/
def lower (digits : ℕ) (q : ℚ) : ℚ :=
  ⌊q / unit digits q⌋ * unit digits q

/-- The midpoint between the number cut after its first `digits` digits and the next one. -/
def midpoint (digits : ℕ) (q : ℚ) : ℚ :=
  lower digits q + unit digits q / 2

/-- Rounded to `far` digits, a number that lies below the midpoint of its neighbours with `near`
    digits is brought up to it. -/
def RisesToMidpoint (far near : ℕ) (q : ℚ) : Prop :=
  midpoint near q - unit far q / 2 ≤ q ∧ q < midpoint near q

theorem lower_le (digits : ℕ) (q : ℚ) : lower digits q ≤ q := by
  rw [lower, ← le_div_iff₀ (unit_pos digits q)]
  exact Int.floor_le _

theorem lt_lower_add (digits : ℕ) (q : ℚ) : q < lower digits q + unit digits q := by
  have hlt := Int.lt_floor_add_one (q / unit digits q)
  rw [div_lt_iff₀ (unit_pos digits q), add_mul, one_mul] at hlt
  exact hlt

theorem roundTo_eq (digits : ℕ) (q : ℚ) :
    roundTo digits q = if midpoint digits q ≤ q then lower digits q + unit digits q
      else lower digits q := by
  exact roundOn_eq (unit_pos digits q) (lower_le digits q) (lt_lower_add digits q).le

section Twice

variable {near far : ℕ} {q : ℚ} (hq : 0 < q) (hn : near ≠ 0)
include hq hn

/-- The second rounding is to multiples of the same unit as if the first had not been made. -/
theorem roundTo_roundTo_eq_roundOn (hf : far ≠ 0) :
    roundTo near (roundTo far q) = roundOn (unit near q) (roundTo far q) := by
  obtain ⟨hle, hle'⟩ := roundTo_bounds hq hf
  have hpos := roundTo_pos hq hf
  rcases hle'.lt_or_eq with hlt | heq
  · rw [roundTo, unit, (log_eq_iff hpos).2 ⟨hle, hlt⟩, ← unit]
  · -- the first rounding has carried into a new digit, and the second has nothing to do
    have hdigits : HasDigits near (roundTo far q) := by
      rw [heq]
      simpa using hasDigits_mul_zpow hn (m := 1) (by simp [one_le_pow₀]) (Int.log 10 q + 1)
    rw [(nearest_roundTo hpos hn).eq_of_hasDigits hdigits, heq, zpow_log_succ_eq near,
      roundOn_mul (unit_pos near q)]

/-- What two roundings find: the first one has moved the midpoint down by half of its unit. -/
theorem roundTo_roundTo (h : near < far) :
    roundTo near (roundTo far q) =
      if midpoint near q - unit far q / 2 ≤ q then lower near q + unit near q
      else lower near q := by
  have hv := unit_pos far q
  obtain ⟨d, rfl⟩ := Nat.exists_eq_add_of_lt h
  have hunit : unit near q = ((10 ^ (d + 1) : ℤ) : ℚ) * unit (near + d + 1) q := by
    rw [unit_eq_mul h.le q, show near + d + 1 - near = d + 1 by omega]
  -- the cut number, the next one and their midpoint are multiples of the smaller unit
  generalize hk : ⌊q / unit near q⌋ = k
  have hlower : lower near q = ((k * 10 ^ (d + 1) : ℤ) : ℚ) * unit (near + d + 1) q := by
    rw [lower, hk, hunit]
    push_cast
    ring
  have hupper : lower near q + unit near q =
      (((k + 1) * 10 ^ (d + 1) : ℤ) : ℚ) * unit (near + d + 1) q := by
    rw [hlower, hunit]
    push_cast
    ring
  have hmid : midpoint near q =
      ((k * 10 ^ (d + 1) + 5 * 10 ^ d : ℤ) : ℚ) * unit (near + d + 1) q := by
    rw [midpoint, hlower, hunit]
    push_cast
    ring
  have hle : lower near q ≤ roundTo (near + d + 1) q := by
    rw [hlower, roundTo, le_roundOn_iff hv, ← hlower]
    linarith [lower_le near q]
  have hle' : roundTo (near + d + 1) q ≤ lower near q + unit near q := by
    rw [hupper]
    exact roundOn_le hv (hupper ▸ (lt_lower_add near q).le)
  have hpass : midpoint near q ≤ roundTo (near + d + 1) q ↔
      midpoint near q - unit (near + d + 1) q / 2 ≤ q := by
    rw [hmid, roundTo, le_roundOn_iff hv]
  rw [roundTo_roundTo_eq_roundOn hq hn (by omega), roundOn_eq (unit_pos near q) hle hle']
  exact if_congr hpass rfl rfl

/-- Rounding twice is correct exactly if the first rounding does not bring the number up to a
    midpoint. -/
theorem nearest_roundTo_roundTo_iff (h : near < far) :
    Nearest near q (roundTo near (roundTo far q)) ↔ ¬ RisesToMidpoint far near q := by
  have hu := unit_pos near q
  have hv := unit_pos far q
  rw [nearest_iff hq hn, roundTo_roundTo hq hn h, roundTo_eq, RisesToMidpoint]
  split_ifs with hrise hmid hmid
  · simp [hmid]
  · simpa [hrise, not_le.1 hmid] using hu.ne'
  · linarith
  · simp [hrise]

/-- Otherwise it is a unit more than the correct value. -/
theorem nearest_roundTo_roundTo_sub (h : near < far) (hrise : RisesToMidpoint far near q) :
    Nearest near q (roundTo near (roundTo far q) - unit near q) := by
  rw [nearest_iff hq hn, roundTo_roundTo hq hn h, if_pos hrise.1, roundTo_eq,
    if_neg (not_le.2 hrise.2), add_sub_cancel_right]

end Twice

end Spreadsheet.Decimal
