import Mathlib.Data.List.Basic
import Mathlib.Data.List.Induction
import Mathlib.Data.Nat.Log
import Mathlib.Tactic.Ring
import Spreadsheet.Decimal.Text
import Spreadsheet.Proofs.Text.Blank

/-!
# Digit strings and the numbers they write

`Digits.value` reads a digit string one digit at a time. It is what the halving algorithms are
measured against: a number is printed as a string with its value, and a string is read as its value.

Results:
* `value_print`, `print_injective`: the printed string writes the number.
* `read_eq_value`: reading finds the number that a string writes.
* `isDigit_of_mem_print`: a printed number is digits only.
* `value_lt`, `value_inj`: the digit strings of one length write different numbers, up to a bound.
* `count_eq_log`, `count_mul_pow`: the number of digits, and what zeros at the end add to it.
* `print_value`: a digit string without its zeros in front is what its number is printed as.
* `trailingZeros_spec`: the zeros at the end are the largest power of ten that divides the number.
-/

namespace Spreadsheet.Digits

/-! ## The number that a string writes -/

/-- The number that a digit string writes, one digit after the other. -/
def value (cs : List Char) : Nat :=
  cs.foldl (fun n c => 10 * n + digitValue c) 0

theorem foldl_value (n : Nat) (cs : List Char) :
    cs.foldl (fun n c => 10 * n + digitValue c) n = n * 10 ^ cs.length + value cs := by
  induction cs generalizing n with
  | nil => simp [value]
  | cons c cs ih =>
    rw [value, List.foldl_cons, List.foldl_cons, ih, ih (10 * 0 + _), List.length_cons, pow_succ]
    ring

theorem value_append (cs ds : List Char) :
    value (cs ++ ds) = value cs * 10 ^ ds.length + value ds := by
  rw [value, List.foldl_append, foldl_value]
  rfl

theorem value_cons (c : Char) (cs : List Char) :
    value (c :: cs) = digitValue c * 10 ^ cs.length + value cs := by
  rw [← List.singleton_append, value_append]
  simp [value]

theorem value_cons_zero (cs : List Char) : value ('0' :: cs) = value cs := by
  simp [value_cons, digitValue]

theorem value_replicate_zero (n : Nat) (cs : List Char) :
    value (List.replicate n '0' ++ cs) = value cs := by
  induction n with
  | zero => rfl
  | succ n ih => rw [List.replicate_succ, List.cons_append, value_cons_zero, ih]

theorem value_dropWhile_zero (cs : List Char) : value (cs.dropWhile (· == '0')) = value cs := by
  induction cs with
  | nil => rfl
  | cons c cs ih =>
    by_cases hc : c = '0'
    · subst hc
      rw [List.dropWhile_cons_of_pos (by simp), ih, value_cons_zero]
    · rw [List.dropWhile_cons_of_neg (by simpa using hc)]

theorem digitValue_lt {c : Char} (h : Decimal.isDigit c) : digitValue c < 10 := by
  simp only [Decimal.isDigit, Bool.and_eq_true, decide_eq_true_eq, Char.le_def,
    UInt32.le_iff_toNat_le] at h
  have h0 : '0'.toNat = 48 := rfl
  have h9 : '9'.val.toNat = 57 := rfl
  have hc : c.toNat = c.val.toNat := rfl
  rw [digitValue]
  omega

theorem digitValue_inj {c d : Char} (hc : Decimal.isDigit c) (hd : Decimal.isDigit d)
    (h : digitValue c = digitValue d) : c = d := by
  simp only [Decimal.isDigit, Bool.and_eq_true, decide_eq_true_eq, Char.le_def,
    UInt32.le_iff_toNat_le] at hc hd
  have h0 : '0'.val.toNat = '0'.toNat := rfl
  have hc' : c.toNat = c.val.toNat := rfl
  have hd' : d.toNat = d.val.toNat := rfl
  rw [digitValue, digitValue] at h
  exact Char.toNat_inj.1 (by omega)

theorem one_le_digitValue {c : Char} (h : Decimal.isDigit c) (hc : c ≠ '0') : 1 ≤ digitValue c := by
  have hne : digitValue c ≠ digitValue '0' := fun heq => hc (digitValue_inj h (by decide) heq)
  have hzero : digitValue '0' = 0 := rfl
  omega

theorem isBlank_of_isDigit {c : Char} (h : Decimal.isDigit c) : isBlank c = false := by
  simp only [Decimal.isDigit, Bool.and_eq_true, decide_eq_true_eq, Char.le_def,
    UInt32.le_iff_toNat_le] at h
  have h0 : '0'.val.toNat = 48 := rfl
  have h9 : '9'.val.toNat = 57 := rfl
  have hc : c.toNat = c.val.toNat := rfl
  simp only [isBlank, hc, Bool.or_eq_false_iff, Bool.and_eq_false_iff, decide_eq_false_iff_not,
    beq_eq_false_iff_ne]
  omega

/-- A number has no more digits than it is written with. -/
theorem value_lt {cs : List Char} (h : ∀ c ∈ cs, Decimal.isDigit c) :
    value cs < 10 ^ cs.length := by
  induction cs with
  | nil => simp [value]
  | cons c cs ih =>
    have hrest := ih fun d hd => h d (List.mem_cons_of_mem _ hd)
    have hc := digitValue_lt (h c List.mem_cons_self)
    have hlead : digitValue c * 10 ^ cs.length ≤ 9 * 10 ^ cs.length :=
      Nat.mul_le_mul_right _ (Nat.le_of_lt_succ hc)
    rw [value_cons, List.length_cons, pow_succ]
    omega

theorem value_concat (cs : List Char) (c : Char) :
    value (cs ++ [c]) = value cs * 10 + digitValue c := by
  rw [value_append, List.length_singleton, pow_one]
  simp [value]

/-- Digit strings of one length write different numbers. -/
theorem value_inj {cs ds : List Char} (hcs : ∀ c ∈ cs, Decimal.isDigit c)
    (hds : ∀ d ∈ ds, Decimal.isDigit d) (hlength : cs.length = ds.length)
    (h : value cs = value ds) : cs = ds := by
  induction cs using List.reverseRecOn generalizing ds with
  | nil => exact (List.length_eq_zero_iff.1 hlength.symm).symm
  | append_singleton cs c ih =>
    rcases List.eq_nil_or_concat' ds with rfl | ⟨ds, d, rfl⟩
    · simp at hlength
    · rw [List.forall_mem_append, List.forall_mem_singleton] at hcs hds
      have hc := digitValue_lt hcs.2
      have hd := digitValue_lt hds.2
      rw [value_concat, value_concat] at h
      rw [ih hcs.1 hds.1 (by simpa using hlength) (by omega),
        digitValue_inj hcs.2 hds.2 (by omega)]

theorem value_append_div {fs : List Char} (hfs : ∀ c ∈ fs, Decimal.isDigit c) (ds : List Char) :
    value (ds ++ fs) / 10 ^ fs.length = value ds := by
  rw [value_append, Nat.add_comm, Nat.add_mul_div_right _ _ (Nat.pow_pos (by decide)),
    Nat.div_eq_of_lt (value_lt hfs), Nat.zero_add]

theorem value_append_mod {fs : List Char} (hfs : ∀ c ∈ fs, Decimal.isDigit c) (ds : List Char) :
    value (ds ++ fs) % 10 ^ fs.length = value fs := by
  rw [value_append, Nat.mul_add_mod', Nat.mod_eq_of_lt (value_lt hfs)]

theorem digitChar_spec {d : Nat} (hd : d < 10) :
    digitValue (digitChar d) = d ∧ Decimal.isDigit (digitChar d) := by
  have hall : ∀ d < 10, digitValue (digitChar d) = d ∧ Decimal.isDigit (digitChar d) := by decide
  exact hall d hd

/-! ## The ladder -/

theorem length_ladder (k : Nat) : (ladder k).length = k := by
  induction k with
  | zero => rfl
  | succ k ih => rw [ladder, List.length_cons, ih]

/-- The square of a rung is the next rung. -/
theorem rung_succ (k : Nat) : 10 ^ 2 ^ (k + 1) = 10 ^ 2 ^ k * 10 ^ 2 ^ k := by
  rw [← pow_add, pow_succ, mul_two]

theorem lt_rung_height (n : Nat) : n < 10 ^ 2 ^ height n := by
  let m := n.log2 / 3 + 1
  have hm : m < 2 ^ height n := Nat.lt_log2_self
  calc n < 2 ^ (n.log2 + 1) := Nat.lt_log2_self
    _ ≤ 2 ^ (3 * m) := Nat.pow_le_pow_right (by decide) (by omega)
    _ = 8 ^ m := by rw [pow_mul, show 2 ^ 3 = 8 from rfl]
    _ ≤ 10 ^ m := Nat.pow_le_pow_left (by decide) m
    _ ≤ 10 ^ 2 ^ height n := Nat.pow_le_pow_right (by decide) hm.le

/-! ## Measuring -/

theorem leadAbove_ladder {k n : Nat} (h : n < 10 ^ 2 ^ k) :
    leadAbove (ladder k) n = Nat.log 10 n := by
  induction k generalizing n with
  | zero =>
    rw [Nat.log_of_lt (by simpa using h)]
    rfl
  | succ k ih =>
    rw [ladder, leadAbove, length_ladder]
    show (if 10 ^ 2 ^ k ≤ n then 2 ^ k + leadAbove (ladder k) (n / 10 ^ 2 ^ k)
      else leadAbove (ladder k) n) = _
    split
    · -- the upper half has the leading digit
      rename_i hle
      have hhalf : n / 10 ^ 2 ^ k < 10 ^ 2 ^ k := Nat.div_lt_of_lt_mul (by rwa [← rung_succ])
      have hlead : 2 ^ k ≤ Nat.log 10 n := Nat.le_log_of_pow_le (by decide) hle
      rw [ih hhalf, Nat.log_div_base_pow]
      omega
    · rename_i hlt
      exact ih (Nat.lt_of_not_le hlt)

/-- The number of digits is one more than the exponent of the leading digit. -/
theorem count_eq_log (n : Nat) : count n = Nat.log 10 n + 1 := by
  rw [count, leadAbove_ladder (lt_rung_height n)]

/-- A digit string without zeros in front has as many digits as its number. -/
theorem length_eq_count {c : Char} {cs : List Char} (h : ∀ d ∈ c :: cs, Decimal.isDigit d)
    (hc : c ≠ '0') : (c :: cs).length = count (value (c :: cs)) := by
  have hlow : 10 ^ cs.length ≤ value (c :: cs) := by
    rw [value_cons]
    exact Nat.le_add_right_of_le
      (Nat.le_mul_of_pos_left _ (one_le_digitValue (h c List.mem_cons_self) hc))
  rw [count_eq_log, Nat.log_eq_of_pow_le_of_lt_pow hlow (value_lt h), List.length_cons]

/-- Zeros at the end add to the number of digits. -/
theorem count_mul_pow {n : Nat} (hn : n ≠ 0) (k : Nat) : count (n * 10 ^ k) = count n + k := by
  have hdiv := Nat.log_div_base_pow 10 (n * 10 ^ k) k
  have hle : k ≤ Nat.log 10 (n * 10 ^ k) :=
    Nat.le_log_of_pow_le (by decide) (Nat.le_mul_of_pos_left _ (Nat.pos_of_ne_zero hn))
  rw [Nat.mul_div_cancel _ (Nat.pow_pos (by decide))] at hdiv
  rw [count_eq_log, count_eq_log, hdiv]
  omega

theorem zerosBelow_ladder {k n : Nat} (h : ¬ 10 ^ 2 ^ k ∣ n) :
    10 ^ zerosBelow (ladder k) n ∣ n ∧ ¬ 10 ^ (zerosBelow (ladder k) n + 1) ∣ n := by
  induction k generalizing n with
  | zero => exact ⟨one_dvd n, h⟩
  | succ k ih =>
    rw [ladder, zerosBelow, length_ladder]
    show 10 ^ (if n % 10 ^ 2 ^ k = 0 then 2 ^ k + zerosBelow (ladder k) (n / 10 ^ 2 ^ k)
        else zerosBelow (ladder k) n) ∣ n ∧
      ¬ 10 ^ ((if n % 10 ^ 2 ^ k = 0 then 2 ^ k + zerosBelow (ladder k) (n / 10 ^ 2 ^ k)
        else zerosBelow (ladder k) n) + 1) ∣ n
    split
    · -- the lower half is zero: the zeros go on in the upper half
      rename_i hmod
      have hpos : 0 < 10 ^ 2 ^ k := Nat.pow_pos (by decide)
      obtain ⟨m, rfl⟩ := Nat.dvd_of_mod_eq_zero hmod
      rw [rung_succ, Nat.mul_dvd_mul_iff_left hpos] at h
      obtain ⟨hzeros, hmore⟩ := ih h
      rw [Nat.mul_div_cancel_left m hpos, pow_add, add_assoc, pow_add,
        Nat.mul_dvd_mul_iff_left hpos, Nat.mul_dvd_mul_iff_left hpos]
      exact ⟨hzeros, hmore⟩
    · rename_i hmod
      exact ih fun hdvd => hmod (Nat.mod_eq_zero_of_dvd hdvd)

/-- The zeros at the end of a positive number are the largest power of ten that divides it. -/
theorem trailingZeros_spec {n : Nat} (hn : n ≠ 0) :
    10 ^ trailingZeros n ∣ n ∧ ¬ 10 ^ (trailingZeros n + 1) ∣ n :=
  zerosBelow_ladder fun hdvd =>
    absurd (Nat.le_of_dvd (Nat.pos_of_ne_zero hn) hdvd) (Nat.not_le.2 (lt_rung_height n))

/-! ## Printing -/

theorem length_printPadded (powers : List Nat) (n : Nat) :
    (printPadded powers n).length = 2 ^ powers.length := by
  induction powers generalizing n with
  | nil => rfl
  | cons p powers ih =>
    rw [printPadded, List.length_append, ih, ih, List.length_cons, pow_succ, mul_two]

/-- Both halves of a number that the ladder splits are numbers that the rest of it splits. -/
theorem half_lt {k n : Nat} (h : n < 10 ^ 2 ^ (k + 1)) :
    n / 10 ^ 2 ^ k < 10 ^ 2 ^ k ∧ n % 10 ^ 2 ^ k < 10 ^ 2 ^ k := by
  have hpos : 0 < 10 ^ 2 ^ k := Nat.pow_pos (by decide)
  rw [rung_succ] at h
  exact ⟨Nat.div_lt_of_lt_mul h, Nat.mod_lt n hpos⟩

theorem value_printPadded {k n : Nat} (h : n < 10 ^ 2 ^ k) :
    value (printPadded (ladder k) n) = n := by
  induction k generalizing n with
  | zero =>
    have hd : digitValue (digitChar n) = n := (digitChar_spec (by simpa using h)).1
    simp [ladder, printPadded, value, hd]
  | succ k ih =>
    obtain ⟨hhigh, hlow⟩ := half_lt h
    rw [ladder, printPadded, value_append, length_printPadded, length_ladder]
    show value (printPadded (ladder k) (n / 10 ^ 2 ^ k)) * 10 ^ 2 ^ k +
      value (printPadded (ladder k) (n % 10 ^ 2 ^ k)) = n
    rw [ih hhigh, ih hlow, mul_comm, Nat.div_add_mod]

theorem isDigit_of_mem_printPadded {k n : Nat} (h : n < 10 ^ 2 ^ k) {c : Char}
    (hc : c ∈ printPadded (ladder k) n) : Decimal.isDigit c := by
  induction k generalizing n with
  | zero =>
    obtain rfl := List.mem_singleton.1 hc
    exact (digitChar_spec (by simpa using h)).2
  | succ k ih =>
    obtain ⟨hhigh, hlow⟩ := half_lt h
    rcases List.mem_append.1 hc with hc | hc
    · exact ih hhigh hc
    · exact ih hlow hc

/-- A printed number has the value of the number. -/
theorem value_print (n : Nat) : value (print n) = n := by
  unfold print
  split
  · rename_i hn
    rw [hn]
    rfl
  · rw [value_dropWhile_zero, value_printPadded (lt_rung_height n)]

theorem print_injective : Function.Injective print := by
  intro m n h
  rw [← value_print m, h, value_print]

theorem isDigit_of_mem_print {n : Nat} {c : Char} (hc : c ∈ print n) : Decimal.isDigit c := by
  unfold print at hc
  split at hc
  · obtain rfl := List.mem_singleton.1 hc
    decide
  · exact isDigit_of_mem_printPadded (lt_rung_height n) ((List.dropWhile_suffix _).subset hc)

theorem print_ne_nil (n : Nat) : print n ≠ [] := by
  intro h
  have hn : n = 0 := by rw [← value_print n, h]; rfl
  simp [hn, print] at h

/-- A number other than zero is printed without zeros in front. -/
theorem head_print {n : Nat} (hn : n ≠ 0) : (print n).head? ≠ some '0' := by
  rw [print, if_neg hn]
  intro h
  exact absurd (head_dropWhile h) (by decide)

/-- Printing the number of a digit string leaves out its zeros in front. -/
theorem print_value {cs : List Char} (h : ∀ c ∈ cs, Decimal.isDigit c) (hne : value cs ≠ 0) :
    print (value cs) = cs.dropWhile (· == '0') := by
  have hvalue := value_dropWhile_zero cs
  obtain ⟨c, ds, hcs⟩ : ∃ c ds, cs.dropWhile (· == '0') = c :: ds := by
    apply List.exists_cons_of_ne_nil
    intro hnil
    rw [hnil] at hvalue
    exact hne hvalue.symm
  obtain ⟨d, es, hprint⟩ := List.exists_cons_of_ne_nil (print_ne_nil (value cs))
  have hc : c ≠ '0' := by
    simpa using head_dropWhile (show (cs.dropWhile (· == '0')).head? = some c by rw [hcs]; rfl)
  have hd : d ≠ '0' := by
    simpa [hprint] using head_print hne
  have hkept : ∀ e ∈ c :: ds, Decimal.isDigit e := fun e he =>
    h e ((List.dropWhile_suffix _).subset (hcs ▸ he))
  have hprinted : ∀ e ∈ d :: es, Decimal.isDigit e := hprint ▸ fun _ => isDigit_of_mem_print
  have hsame : value (d :: es) = value (c :: ds) := by
    rw [← hprint, value_print, ← hcs, hvalue]
  rw [hprint, hcs]
  refine value_inj hprinted hkept ?_ hsame
  rw [length_eq_count hprinted hd, length_eq_count hkept hc, hsame]

/-! ## Reading -/

theorem readPadded_ladder {k : Nat} {cs : List Char} (h : 2 ^ k ≤ cs.length) :
    readPadded (ladder k) cs = (value (cs.take (2 ^ k)), cs.drop (2 ^ k)) := by
  induction k generalizing cs with
  | zero =>
    cases cs with
    | nil => simp at h
    | cons c cs =>
      show (digitValue c, cs) = (value [c], cs)
      simp [value]
  | succ k ih =>
    rw [pow_succ, mul_two] at h
    have hhigh : 2 ^ k ≤ cs.length := by omega
    have hlow : 2 ^ k ≤ (cs.drop (2 ^ k)).length := by
      rw [List.length_drop]
      omega
    rw [ladder, readPadded, ih hhigh]
    dsimp only
    rw [ih hlow, List.drop_drop, pow_succ, mul_two, List.take_add, value_append, List.length_take,
      Nat.min_eq_left hlow]
    rfl

/-- Reading a digit string finds the number that it writes. -/
theorem read_eq_value (cs : List Char) : read cs = value cs := by
  have hlen : cs.length < 2 ^ (cs.length.log2 + 1) := Nat.lt_log2_self
  have hpadded : (List.replicate (2 ^ (cs.length.log2 + 1) - cs.length) '0' ++ cs).length =
      2 ^ (cs.length.log2 + 1) := by
    rw [List.length_append, List.length_replicate]
    omega
  show (readPadded (ladder (cs.length.log2 + 1))
    (List.replicate (2 ^ (cs.length.log2 + 1) - cs.length) '0' ++ cs)).1 = value cs
  rw [readPadded_ladder hpadded.ge, List.take_of_length_le hpadded.le, value_replicate_zero]

theorem read_print (n : Nat) : read (print n) = n := by
  rw [read_eq_value, value_print]

end Spreadsheet.Digits
