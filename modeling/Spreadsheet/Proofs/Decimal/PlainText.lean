import Spreadsheet.Proofs.Decimal.Reading

/-!
# The plain text of a number

A number is written in one plain notation, whatever its pair. The notation is a part of the grammar
of numbers: no exponent, no `+`, no zeros that could be left out. Since the text denotes the number,
reading gives the number back.

Results:
* `Plain`, `PlainText`: plain notation, with the number of each text.
* `printPlain_plain`, `toChars_plainText`: numbers are written in plain notation.
* `PlainText.unique`: a number has one text in plain notation.
* `PlainText.denotes`: plain notation is part of the grammar that is read.
* `toText_canonical`: the text depends on the number only, tells numbers apart and is read back.
-/

namespace Spreadsheet.Decimal

open Digits (value)

/-! ## Plain notation -/

/-- The digits of an integer part: none is missing, and a zero in front stands alone. -/
structure IsWhole (ds : List Char) : Prop where
  digits : IsDigits ds
  ne_nil : ds ≠ []
  head : ds.head? = some '0' → ds = ['0']

/-- The digits of a fraction: the last one is there and is not zero. -/
structure IsFraction (fs : List Char) : Prop where
  digits : IsDigits fs
  last : ∃ c, fs.getLast? = some c ∧ c ≠ '0'

/-- Plain notation without a sign, and the number that it writes. -/
inductive Plain : List Char → ℚ → Prop
  | whole {ds : List Char} (hds : IsWhole ds) : Plain ds (value ds)
  | point {ds fs : List Char} (hds : IsWhole ds) (hfs : IsFraction fs) :
      Plain (ds ++ '.' :: fs) (value ds + value fs / 10 ^ fs.length)

/-- Plain notation, with `-` before a number other than zero. -/
inductive PlainText : List Char → ℚ → Prop
  | nonneg {cs : List Char} {q : ℚ} (h : Plain cs q) : PlainText cs q
  | neg {cs : List Char} {q : ℚ} (h : Plain cs q) (hq : 0 < q) : PlainText ('-' :: cs) (-q)

/-! ## Digits of a number without zeros at its ends -/

theorem isDigits_replicate_zero (k : Nat) : IsDigits (List.replicate k '0') := by
  intro c hc
  rw [List.eq_of_mem_replicate hc]
  decide

theorem isWhole_zero : IsWhole ['0'] :=
  ⟨isDigits_replicate_zero 1, by simp, fun _ => rfl⟩

/-- The digits of a number that is not zero, without zeros in front, and not a multiple of ten. -/
structure Significant (ds : List Char) : Prop where
  digits : IsDigits ds
  head : ds.head? ≠ some '0'
  mod : value ds % 10 ≠ 0

theorem significant_print {n : Nat} (hn : n % 10 ≠ 0) : Significant (Digits.print n) where
  digits := fun _ => Digits.isDigit_of_mem_print
  head := Digits.head_print fun hzero => hn (by rw [hzero])
  mod := by rwa [Digits.value_print]

namespace Significant

variable {ds : List Char} (h : Significant ds)

include h

theorem ne_nil : ds ≠ [] := by
  rintro rfl
  exact h.mod rfl

/-- The last digit is not zero. -/
theorem last : ∃ c, ds.getLast? = some c ∧ c ≠ '0' := by
  obtain ⟨init, last, rfl⟩ := (List.eq_nil_or_concat' ds).resolve_left h.ne_nil
  refine ⟨last, by simp, ?_⟩
  rintro rfl
  have hmod := h.mod
  rw [Digits.value_concat] at hmod
  exact hmod (Nat.mul_mod_left _ _)

/-- All digits before the point, and zeros after them. -/
theorem plain_whole (zeros : Nat) :
    Plain (ds ++ List.replicate zeros '0') (value ds * 10 ^ zeros) := by
  have hwhole : IsWhole (ds ++ List.replicate zeros '0') := by
    refine ⟨List.forall_mem_append.2 ⟨h.digits, isDigits_replicate_zero zeros⟩,
      by simp [h.ne_nil], fun hzero => absurd hzero ?_⟩
    rw [List.head?_append_of_ne_nil _ h.ne_nil]
    exact h.head
  have hvalue : value (ds ++ List.replicate zeros '0') = value ds * 10 ^ zeros := by
    have hzeros := Digits.value_replicate_zero zeros []
    rw [List.append_nil] at hzeros
    rw [Digits.value_append, hzeros, List.length_replicate]
    rfl
  have hplain := Plain.whole hwhole
  rw [hvalue] at hplain
  exact_mod_cast hplain

/-- The point between two digits. -/
theorem plain_point {places : Nat} (hpos : 0 < places) (hlt : places < ds.length) :
    Plain (ds.take (ds.length - places) ++ '.' :: ds.drop (ds.length - places))
      (value ds / 10 ^ places) := by
  have hwhole : IsWhole (ds.take (ds.length - places)) := by
    refine ⟨fun c hc => h.digits c (List.mem_of_mem_take hc), ?_, fun hzero => absurd hzero ?_⟩
    · rw [ne_eq, List.take_eq_nil_iff, not_or]
      exact ⟨by omega, h.ne_nil⟩
    · rw [List.head?_take, if_neg (by omega)]
      exact h.head
  have hlength : (ds.drop (ds.length - places)).length = places := by
    rw [List.length_drop]
    omega
  have hfraction : IsFraction (ds.drop (ds.length - places)) := by
    refine ⟨fun c hc => h.digits c (List.mem_of_mem_drop hc), ?_⟩
    rw [List.getLast?_drop, if_neg (by omega)]
    exact h.last
  have hplain := Plain.point hwhole hfraction
  rwa [← pointed_eq, pointed, List.take_append_drop, hlength] at hplain

/-- A zero before the point, and zeros after it to the first digit. -/
theorem plain_fraction {places : Nat} (hle : ds.length ≤ places) :
    Plain ('0' :: '.' :: (List.replicate (places - ds.length) '0' ++ ds))
      (value ds / 10 ^ places) := by
  have hfraction : IsFraction (List.replicate (places - ds.length) '0' ++ ds) := by
    refine ⟨List.forall_mem_append.2 ⟨isDigits_replicate_zero _, h.digits⟩, ?_⟩
    rw [List.getLast?_append_of_ne_nil _ h.ne_nil]
    exact h.last
  have hlength : (List.replicate (places - ds.length) '0' ++ ds).length = places := by
    rw [List.length_append, List.length_replicate]
    omega
  have hvalue : value (['0'] ++ (List.replicate (places - ds.length) '0' ++ ds)) = value ds := by
    rw [List.singleton_append, Digits.value_cons_zero, Digits.value_replicate_zero]
  have hplain := Plain.point isWhole_zero hfraction
  rwa [← pointed_eq, pointed, hvalue, hlength] at hplain

end Significant

/-! ## Writing -/

/-- An integer that is not a multiple of ten, times a power of ten, is written in plain notation. -/
theorem printPlain_plain {n : Nat} (hn : n % 10 ≠ 0) (scale : Int) :
    Plain (printPlain n scale) (n * 10 ^ (-scale)) := by
  have h := significant_print hn
  have hvalue := Digits.value_print n
  rw [printPlain]
  generalize Digits.print n = ds at h hvalue
  subst hvalue
  split
  · rename_i hscale
    have hpow : (10 : ℚ) ^ (-scale) = 10 ^ scale.natAbs := by
      rw [← zpow_natCast]
      congr 1
      omega
    rw [hpow]
    exact h.plain_whole _
  · rename_i hscale
    obtain ⟨places, rfl⟩ := Int.eq_ofNat_of_zero_le (Int.le_of_not_le hscale)
    rw [zpow_neg, zpow_natCast, ← div_eq_mul_inv, Int.toNat_natCast]
    dsimp only
    split
    · rename_i hlt
      exact h.plain_point (by omega) hlt
    · rename_i hle
      exact h.plain_fraction (Nat.le_of_not_lt hle)

/-- A number is written in plain notation. -/
theorem toChars_plainText (x : Decimal) : PlainText x.toChars x.toRat := by
  rw [← toRat_normalize, toChars]
  rcases isNormal_normalize x with hzero | hnormal
  · have hplain := PlainText.nonneg (Plain.whole isWhole_zero)
    rw [hzero, toRat_zero]
    rwa [show value ['0'] = 0 from rfl, Nat.cast_zero] at hplain
  · generalize x.normalize = y at hnormal
    have hplain := printPlain_plain (n := y.unscaled.natAbs) (by omega) y.scale
    split
    · rename_i hneg
      have hrat : y.toRat = -(y.unscaled.natAbs * 10 ^ (-y.scale)) := by
        rw [toRat, Nat.cast_natAbs, abs_of_neg hneg]
        push_cast
        ring
      have hpos : (0 : ℚ) < y.unscaled.natAbs := by
        exact_mod_cast Int.natAbs_pos.2 hneg.ne
      rw [hrat]
      exact .neg hplain (by positivity)
    · rename_i hnonneg
      have hrat : y.toRat = y.unscaled.natAbs * 10 ^ (-y.scale) := by
        rw [toRat, Nat.cast_natAbs, abs_of_nonneg (Int.not_lt.1 hnonneg)]
      rw [hrat]
      exact .nonneg hplain

/-! ## One text for each number -/

theorem IsWhole.length_eq {ds : List Char} (h : IsWhole ds) :
    ds.length = Digits.count (value ds) := by
  obtain ⟨c, cs, rfl⟩ := List.exists_cons_of_ne_nil h.ne_nil
  by_cases hc : c = '0'
  · subst hc
    obtain rfl := (List.cons.inj (h.head rfl)).2
    rfl
  · exact Digits.length_eq_count h.digits hc

/-- A number has one integer part. -/
theorem IsWhole.eq {ds es : List Char} (hds : IsWhole ds) (hes : IsWhole es)
    (h : value ds = value es) : ds = es :=
  Digits.value_inj hds.digits hes.digits (by rw [hds.length_eq, hes.length_eq, h]) h

theorem IsFraction.value_mod {fs : List Char} (h : IsFraction fs) (ds : List Char) :
    value (ds ++ fs) % 10 ≠ 0 := by
  obtain ⟨c, hlast, hc⟩ := h.last
  obtain ⟨init, rfl⟩ := List.getLast?_eq_some_iff.1 hlast
  have hdigit : isDigit c := h.digits c (by simp)
  have hlt := Digits.digitValue_lt hdigit
  have hpos := Digits.one_le_digitValue hdigit hc
  rw [← List.append_assoc, Digits.value_concat]
  omega

/-- The digits before and after the point. -/
theorem Plain.exists_parts {cs : List Char} {q : ℚ} (h : Plain cs q) :
    ∃ ds fs, IsWhole ds ∧ IsDigits fs ∧ (fs.length ≠ 0 → value (ds ++ fs) % 10 ≠ 0) ∧
      cs = ds ++ (if fs = [] then [] else '.' :: fs) ∧ q = pointed ds fs := by
  cases h with
  | whole hds => exact ⟨cs, [], hds, by simp [IsDigits], by simp, by simp, by simp [pointed]⟩
  | @point ds fs hds hfs =>
    have hne : fs ≠ [] := by
      obtain ⟨c, hlast, -⟩ := hfs.last
      rintro rfl
      cases hlast
    exact ⟨ds, fs, hds, hfs.digits, fun _ => hfs.value_mod ds, by rw [if_neg hne],
      (pointed_eq _ _).symm⟩

/-- A number with places after its point has one number of places if the last one is not zero. -/
theorem eq_of_div_eq {m n k l : ℕ} (hm : k ≠ 0 → m % 10 ≠ 0) (hn : l ≠ 0 → n % 10 ≠ 0)
    (h : (m : ℚ) / 10 ^ k = n / 10 ^ l) : k = l ∧ m = n := by
  wlog hle : k ≤ l generalizing m n k l
  · obtain ⟨hkl, hmn⟩ := this hn hm h.symm (Nat.le_of_not_le hle)
    exact ⟨hkl.symm, hmn.symm⟩
  obtain ⟨d, rfl⟩ := Nat.exists_eq_add_of_le hle
  have hmn : n = m * 10 ^ d := by
    rw [pow_add, div_eq_div_iff (by positivity) (by positivity), mul_comm (10 ^ k : ℚ) (10 ^ d),
      ← mul_assoc, mul_left_inj' (by positivity)] at h
    exact_mod_cast h.symm
  cases d with
  | zero => simp [hmn]
  | succ d =>
    refine absurd ?_ (hn (by omega))
    rw [hmn, pow_succ, ← mul_assoc, Nat.mul_mod_left]

theorem Plain.unique {cs ds : List Char} {q : ℚ} (hcs : Plain cs q) (hds : Plain ds q) :
    cs = ds := by
  obtain ⟨as, fs, has, hfs, hlast, rfl, rfl⟩ := hcs.exists_parts
  obtain ⟨bs, gs, hbs, hgs, hlast', rfl, heq⟩ := hds.exists_parts
  obtain ⟨hlength, hvalue⟩ := eq_of_div_eq hlast hlast' heq
  have hwhole := Digits.value_append_div hfs as
  rw [hvalue, hlength, Digits.value_append_div hgs] at hwhole
  have hfraction := Digits.value_append_mod hfs as
  rw [hvalue, hlength, Digits.value_append_mod hgs] at hfraction
  rw [has.eq hbs hwhole.symm, Digits.value_inj hfs hgs hlength hfraction.symm]

theorem Plain.nonneg {cs : List Char} {q : ℚ} (h : Plain cs q) : 0 ≤ q := by
  cases h <;> positivity

theorem PlainText.sign {cs : List Char} {q : ℚ} (h : PlainText cs q) :
    (0 ≤ q ∧ Plain cs q) ∨ (q < 0 ∧ ∃ ds, cs = '-' :: ds ∧ Plain ds (-q)) := by
  cases h with
  | nonneg h => exact Or.inl ⟨h.nonneg, h⟩
  | @neg ds q h hq => exact Or.inr ⟨by simpa using hq, ds, rfl, by simpa using h⟩

/-- A number has one text in plain notation. -/
theorem PlainText.unique {cs ds : List Char} {q : ℚ} (hcs : PlainText cs q)
    (hds : PlainText ds q) : cs = ds := by
  rcases hcs.sign with ⟨hle, hplain⟩ | ⟨hlt, cs, rfl, hplain⟩
  · rcases hds.sign with ⟨-, hplain'⟩ | ⟨hlt, -⟩
    · exact Plain.unique hplain hplain'
    · exact absurd hlt (not_lt.2 hle)
  · rcases hds.sign with ⟨hle, -⟩ | ⟨-, ds, rfl, hplain'⟩
    · exact absurd hlt (not_lt.2 hle)
    · rw [Plain.unique hplain hplain']

/-! ## Reading what was written -/

theorem Plain.mantissa {cs : List Char} {q : ℚ} (h : Plain cs q) : Mantissa cs q := by
  cases h with
  | whole hds => exact .whole hds.digits hds.ne_nil
  | point hds hfs => exact .point hds.digits hds.ne_nil hfs.digits

/-- Plain notation is part of the grammar of numbers. -/
theorem PlainText.denotes {cs : List Char} {q : ℚ} (h : PlainText cs q) : Denotes cs q := by
  cases h with
  | nonneg h => simpa using Denotes.intro .absent h.mantissa .absent
  | neg h hq => simpa using Denotes.intro .minus h.mantissa .absent

theorem PlainText.isBlank_eq_false {cs : List Char} {q : ℚ} (h : PlainText cs q) :
    ∀ c ∈ cs, isBlank c = false := by
  have hdigits {ds : List Char} (hds : IsDigits ds) : ∀ c ∈ ds, isBlank c = false :=
    fun c hc => Digits.isBlank_of_isDigit (hds c hc)
  have hplain {cs : List Char} {q : ℚ} (h : Plain cs q) : ∀ c ∈ cs, isBlank c = false := by
    cases h with
    | whole hds => exact hdigits hds.digits
    | point hds hfs =>
      exact List.forall_mem_append.2
        ⟨hdigits hds.digits, List.forall_mem_cons.2 ⟨rfl, hdigits hfs.digits⟩⟩
  cases h with
  | nonneg h => exact hplain h
  | neg h _ => exact List.forall_mem_cons.2 ⟨rfl, hplain h⟩

/-- The text of a number denotes the number. -/
theorem denotes_toText (x : Decimal) : Denotes (trimBlank x.toText.toList) x.toRat := by
  have hplain := toChars_plainText x
  have hblank := hplain.isBlank_eq_false
  rw [toText, String.toList_ofList, trimBlank_of_ends
    (fun c hc => hblank c (List.mem_of_mem_head? hc))
    (fun c hc => hblank c (List.mem_of_getLast? hc))]
  exact hplain.denotes

theorem ofText?_toText {x : Decimal} (h : x.inRange = true) :
    ofText? x.toText = some x.normalize := by
  rw [(denotes_toText x).ofText?_eq, if_pos h]

theorem toText_congr {x y : Decimal} (h : x.toRat = y.toRat) : x.toText = y.toText := by
  rw [toText, toText, toChars, toChars, normalize_eq_iff.2 h]

/-- The range and the text of a number do not depend on its pair, and different numbers have
    different texts. The text is the only one in plain notation, `0` for zero, and a number in range
    is read back from it. -/
theorem toText_canonical (x y : Decimal) :
    (x.toRat = y.toRat → x.inRange = y.inRange ∧ x.toText = y.toText) ∧
    (x.inRange = true → ofText? x.toText = some x.normalize) ∧
    (x.toText = y.toText ↔ x.toRat = y.toRat) ∧
    (∀ cs, PlainText cs x.toRat ↔ cs = x.toText.toList) ∧
    (x.toRat = 0 → x.toText = "0") := by
  refine ⟨fun h => ⟨inRange_congr h, toText_congr h⟩, ofText?_toText,
    ⟨fun h => ?_, toText_congr⟩, fun cs => ?_,
    fun h => toText_congr (y := 0) (h.trans toRat_zero.symm)⟩
  · have hy := denotes_toText y
    rw [← h] at hy
    exact (denotes_toText x).unique hy
  · rw [toText, String.toList_ofList]
    constructor
    · intro hcs
      exact hcs.unique (toChars_plainText x)
    · rintro rfl
      exact toChars_plainText x

end Spreadsheet.Decimal
