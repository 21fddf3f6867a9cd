import Mathlib.Data.List.Basic
import Spreadsheet.Position
import Spreadsheet.Proofs.Decimal.Digits
import Spreadsheet.Proofs.Text.Blank
import Spreadsheet.Proofs.Text.UpperCase

/-!
# Addresses name positions

Results:
* `ofAddress_address`, `ofLocation_address`: the address of a position is read as that position.
* `address_injective`: different positions of the grid have different addresses.
* `toOption_ofLocation_upper`: an address in upper case, as references are resolved, means the cell
  that the address means as it was written.
* `exists_ofLocation_iff`: the texts that are read as a position of the grid.
-/

namespace Spreadsheet

/-! ## Letters and digits -/

theorem ascii_of_isLetter {c : Char} (h : isLetter c) : c.toNat < 0x80 := by
  simp only [isLetter, Bool.or_eq_true, Bool.and_eq_true, decide_eq_true_eq, Char.le_def,
    UInt32.le_iff_toNat_le] at h
  have hZ : 'Z'.val.toNat = 90 := rfl
  have hz : 'z'.val.toNat = 122 := rfl
  have hc : c.toNat = c.val.toNat := rfl
  omega

theorem ascii_of_isDigit {c : Char} (h : Decimal.isDigit c) : c.toNat < 0x80 := by
  simp only [Decimal.isDigit, Bool.and_eq_true, decide_eq_true_eq, Char.le_def,
    UInt32.le_iff_toNat_le] at h
  have h9 : '9'.val.toNat = 57 := rfl
  have hc : c.toNat = c.val.toNat := rfl
  omega

theorem letter_spec {c : Char} (h : isLetter c) :
    isBlank c = false ∧ isLetter c.toUpper ∧ letterValue c.toUpper = letterValue c := by
  have hc := ascii_of_isLetter h
  revert h
  refine forall_ascii (p := fun c => isLetter c → isBlank c = false ∧ isLetter c.toUpper ∧
    letterValue c.toUpper = letterValue c) ?_ hc
  decide

theorem digit_spec {c : Char} (h : Decimal.isDigit c) : isLetter c = false ∧ c.toUpper = c := by
  have hc := ascii_of_isDigit h
  revert h
  refine forall_ascii (p := fun c => Decimal.isDigit c → isLetter c = false ∧ c.toUpper = c) ?_ hc
  decide

theorem toList_upper_of_ascii {s : String} (h : ∀ c ∈ s.toList, c.toNat < 0x80) :
    (upper s).toList = s.toList.map Char.toUpper := by
  rw [toList_upper, List.map_eq_flatMap]
  apply List.flatMap_congr
  intro c hc
  exact upperChar_of_ascii (h c hc)

/-! ## Columns -/

theorem letter_ofNat {n : Nat} (hn : n < 26) :
    isLetter (letter n) ∧ letterValue (letter n) = n + 1 := by
  have hall : ∀ n < 26, isLetter (letter n) ∧ letterValue (letter n) = n + 1 := by decide
  exact hall n hn

theorem isLetter_of_mem_columnLetters {col : Nat} {c : Char} (hc : c ∈ columnLetters col) :
    isLetter c := by
  induction col using columnLetters.induct with
  | case1 col hcol =>
    rw [columnLetters, if_pos hcol] at hc
    rw [List.mem_singleton.1 hc]
    exact (letter_ofNat hcol).1
  | case2 col hcol ih =>
    rw [columnLetters, if_neg hcol] at hc
    rcases List.mem_append.1 hc with hc | hc
    · exact ih hc
    · rw [List.mem_singleton.1 hc]
      exact (letter_ofNat (Nat.mod_lt _ (by decide))).1

theorem columnLetters_ne_nil (col : Nat) : columnLetters col ≠ [] := by
  rw [columnLetters]
  split
  · exact List.cons_ne_nil _ _
  · exact List.append_ne_nil_of_right_ne_nil _ (List.cons_ne_nil _ _)

/-- The letters of a column are read as its number, counted from one. -/
theorem readColumn?_columnLetters {col : Nat} (h : col + 1 < addressBound) :
    readColumn? (columnLetters col) = some (col + 1) := by
  induction col using columnLetters.induct with
  | case1 col hcol =>
    rw [columnLetters, if_pos hcol]
    simp [readColumn?, (letter_ofNat hcol).2, h]
  | case2 col hcol ih =>
    have hmod : col % 26 < 26 := Nat.mod_lt _ (by decide)
    have hvalue : (col / 26 - 1 + 1) * 26 + (col % 26 + 1) = col + 1 := by omega
    rw [columnLetters, if_neg hcol, readColumn?, List.foldlM_append, ← readColumn?,
      ih (by omega)]
    simp [(letter_ofNat hmod).2, hvalue, h]

theorem readColumn?_map_toUpper {letters : List Char} (h : ∀ c ∈ letters, isLetter c) :
    readColumn? (letters.map Char.toUpper) = readColumn? letters := by
  unfold readColumn?
  generalize 0 = n
  induction letters generalizing n with
  | nil => rfl
  | cons c letters ih =>
    have hc := (letter_spec (h c List.mem_cons_self)).2.2
    simp only [List.map_cons, List.foldlM_cons, hc]
    congr 1
    funext m
    exact ih (fun d hd => h d (List.mem_cons_of_mem _ hd)) m

/-! ## Texts of letters and digits -/

section Shape

variable {letters digits : List Char} (hletters : ∀ c ∈ letters, isLetter c)
  (hdigits : ∀ c ∈ digits, Decimal.isDigit c)
include hletters hdigits

/-- Letters and then digits are told apart. -/
theorem split_letters :
    (letters ++ digits).takeWhile isLetter = letters ∧
      (letters ++ digits).dropWhile isLetter = digits := by
  have hnone : digits.takeWhile isLetter = [] ∧ digits.dropWhile isLetter = digits := by
    cases digits with
    | nil => exact ⟨rfl, rfl⟩
    | cons d digits =>
      have hd := (digit_spec (hdigits d List.mem_cons_self)).1
      exact ⟨by simp [hd], by simp [hd]⟩
  rw [List.takeWhile_append_of_pos hletters, List.dropWhile_append_of_pos hletters, hnone.1,
    hnone.2]
  exact ⟨List.append_nil _, rfl⟩

theorem isBlank_of_shape {c : Char} (hc : c ∈ letters ++ digits) : isBlank c = false := by
  rcases List.mem_append.1 hc with hc | hc
  · exact (letter_spec (hletters c hc)).1
  · exact Digits.isBlank_of_isDigit (hdigits c hc)

namespace Position

/-- What an address is read as. -/
theorem toOption_ofAddress (hl : letters ≠ []) (hd : digits ≠ []) {s : String}
    (hs : s.toList = letters ++ digits) :
    (ofAddress s).toOption = (readColumn? letters).bind fun col =>
      if addressBound ≤ Digits.read digits then none
      else if Digits.read digits = 0 then none
      else some ⟨Digits.read digits - 1, col - 1⟩ := by
  obtain ⟨htake, hdrop⟩ := split_letters hletters hdigits
  have hshape : isAddressShape letters digits := by
    simpa [isAddressShape, hl, hd] using hdigits
  unfold ofAddress
  rw [hs, htake, hdrop]
  simp only [hshape, Bool.not_true, Bool.false_eq_true, if_false]
  rcases readColumn? letters with _ | col
  · rfl
  · simp only [Option.bind_some]
    split
    · rfl
    · split <;> rfl

end Position

end Shape

namespace Position

/-! ## Writing and reading -/

theorem toOption_eq_some_iff {ε α : Type} {x : Except ε α} {a : α} :
    x.toOption = some a ↔ x = .ok a := by
  cases x <;> simp [Except.toOption]

/-- The address of a position is read as that position. -/
theorem ofAddress_address {p : Position} (hrow : p.row + 1 < addressBound)
    (hcol : p.col + 1 < addressBound) : ofAddress p.address = .ok p := by
  apply toOption_eq_some_iff.1
  rw [toOption_ofAddress (fun _ => isLetter_of_mem_columnLetters)
    (fun _ => Digits.isDigit_of_mem_print) (columnLetters_ne_nil p.col) (Digits.print_ne_nil _)
    (by rw [address, String.toList_ofList]), readColumn?_columnLetters hcol, Digits.read_print]
  simp [Nat.not_le.2 hrow]

theorem ofLocation_eq_ok_iff {s : String} {p : Position} :
    ofLocation s = .ok p ↔ ofAddress (trim s) = .ok p ∧ p.inGrid := by
  delta ofLocation
  rcases ofAddress (trim s) with e | q
  · simp
  · by_cases hq : q.inGrid
    · simp only [hq, if_true, Except.ok.injEq]
      exact ⟨fun heq => ⟨heq, heq ▸ hq⟩, And.left⟩
    · simp only [hq, Except.ok.injEq]
      refine ⟨fun hp => by simp at hp, ?_⟩
      rintro ⟨rfl, hgrid⟩
      exact absurd hgrid hq

theorem lt_addressBound {p : Position} (h : p.inGrid) :
    p.row + 1 < addressBound ∧ p.col + 1 < addressBound := by
  rw [inGrid, Bool.and_eq_true, decide_eq_true_eq, decide_eq_true_eq] at h
  have hrows : gridRows = 9999 := rfl
  have hcols : gridCols = 475254 := rfl
  have hbound : addressBound = 18446744073709551616 := rfl
  omega

theorem trim_address (p : Position) : trim p.address = p.address := by
  have hblank : ∀ c ∈ p.address.toList, isBlank c = false := by
    intro c hc
    rw [address, String.toList_ofList] at hc
    exact isBlank_of_shape (fun _ => isLetter_of_mem_columnLetters)
      (fun _ => Digits.isDigit_of_mem_print) hc
  exact trim_of_ends (fun c hc => hblank c (List.mem_of_mem_head? hc))
    (fun c hc => hblank c (List.mem_of_mem_getLast? hc))

theorem ofLocation_address {p : Position} (h : p.inGrid) : ofLocation p.address = .ok p := by
  obtain ⟨hrow, hcol⟩ := lt_addressBound h
  rw [ofLocation_eq_ok_iff, trim_address]
  exact ⟨ofAddress_address hrow hcol, h⟩

theorem address_injective {p q : Position} (hp : p.inGrid) (hq : q.inGrid)
    (h : p.address = q.address) : p = q := by
  have heq := ofLocation_address hp
  rw [h, ofLocation_address hq] at heq
  exact (Except.ok.inj heq).symm

theorem inGrid_of_ofLocation {s : String} {p : Position} (h : ofLocation s = .ok p) : p.inGrid :=
  (ofLocation_eq_ok_iff.1 h).2

/-! ## Upper case -/

/-- Letters and then digits, at least one of each. -/
def IsShape (s : String) : Prop :=
  isAddressShape (s.toList.takeWhile isLetter) (s.toList.dropWhile isLetter)

theorem IsShape.split {s : String} (h : IsShape s) :
    ∃ letters digits, s.toList = letters ++ digits ∧ (letters ≠ [] ∧ digits ≠ []) ∧
      (∀ c ∈ letters, isLetter c) ∧ ∀ c ∈ digits, Decimal.isDigit c := by
  simp only [IsShape, isAddressShape, Bool.and_eq_true, Bool.not_eq_true',
    List.isEmpty_eq_false_iff, List.all_eq_true] at h
  exact ⟨_, _, List.takeWhile_append_dropWhile.symm, h.1, fun c hc => List.mem_takeWhile_imp hc,
    h.2⟩

/-- In upper case only the letters of an address change. -/
theorem toList_upper_of_shape {letters digits : List Char} (hletters : ∀ c ∈ letters, isLetter c)
    (hdigits : ∀ c ∈ digits, Decimal.isDigit c) {s : String} (hs : s.toList = letters ++ digits) :
    (upper s).toList = letters.map Char.toUpper ++ digits := by
  rw [toList_upper_of_ascii, hs, List.map_append]
  · congr 1
    conv_rhs => rw [← List.map_id digits]
    apply List.map_congr_left
    intro c hc
    exact (digit_spec (hdigits c hc)).2
  · intro c hc
    rw [hs] at hc
    rcases List.mem_append.1 hc with hc | hc
    · exact ascii_of_isLetter (hletters c hc)
    · exact ascii_of_isDigit (hdigits c hc)

/-- A reference is resolved by its address in upper case: that is the cell of the grid that the
    address itself means. -/
theorem toOption_ofLocation_upper {s : String} (h : IsShape s) (p : Position) :
    (ofLocation (upper s)).toOption = some p ↔ ofAddress s = .ok p ∧ p.inGrid := by
  obtain ⟨letters, digits, hs, ⟨hl, hd⟩, hletters, hdigits⟩ := h.split
  have hupper := toList_upper_of_shape hletters hdigits hs
  have hupperLetters : ∀ c ∈ letters.map Char.toUpper, isLetter c := by
    intro c hc
    obtain ⟨d, hd, rfl⟩ := List.mem_map.1 hc
    exact (letter_spec (hletters d hd)).2.1
  have htrim : trim (upper s) = upper s := by
    have hblank : ∀ c ∈ (upper s).toList, isBlank c = false := fun c hc =>
      isBlank_of_shape hupperLetters hdigits (hupper ▸ hc)
    exact trim_of_ends (fun c hc => hblank c (List.mem_of_mem_head? hc))
      (fun c hc => hblank c (List.mem_of_mem_getLast? hc))
  have hsame : (ofAddress (upper s)).toOption = (ofAddress s).toOption := by
    rw [toOption_ofAddress hupperLetters hdigits (mt List.map_eq_nil_iff.1 hl) hd hupper,
      toOption_ofAddress hletters hdigits hl hd hs, readColumn?_map_toUpper hletters]
  rw [toOption_eq_some_iff, ofLocation_eq_ok_iff, htrim, ← toOption_eq_some_iff, hsame,
    toOption_eq_some_iff]

end Position

/-! ## Columns of the grid -/

/-- The number of a column, counted from one: its letters are digits from 1 to 26 in base 26. -/
def columnNumber (letters : List Char) : Nat :=
  letters.foldl (fun n c => n * 26 + letterValue c) 0

theorem columnNumber_concat (letters : List Char) (c : Char) :
    columnNumber (letters ++ [c]) = columnNumber letters * 26 + letterValue c := by
  rw [columnNumber, List.foldl_append]
  rfl

theorem letterValue_spec {c : Char} (h : isLetter c) : 1 ≤ letterValue c ∧ letterValue c ≤ 26 := by
  have hc := ascii_of_isLetter h
  revert h
  refine forall_ascii (p := fun c => isLetter c → 1 ≤ letterValue c ∧ letterValue c ≤ 26) ?_ hc
  decide

/-- Columns of `k` letters have numbers from `(26 ^ k - 1) / 25` to `(26 ^ (k + 1) - 26) / 25`. -/
theorem columnNumber_bounds {letters : List Char} (h : ∀ c ∈ letters, isLetter c) :
    26 ^ letters.length ≤ 25 * columnNumber letters + 1 ∧
      25 * columnNumber letters + 26 ≤ 26 ^ (letters.length + 1) := by
  induction letters using List.reverseRecOn with
  | nil => decide
  | append_singleton letters c ih =>
    obtain ⟨hlow, hhigh⟩ := ih fun d hd => h d (List.mem_append_left _ hd)
    obtain ⟨hone, hlast⟩ := letterValue_spec (h c (by simp))
    rw [columnNumber_concat, List.length_append, List.length_singleton, pow_succ, pow_succ]
    rw [pow_succ] at hhigh
    omega

section Bounded

variable {α : Type} {step : Nat → α → Nat} (hstep : ∀ n a, n ≤ step n a)
include hstep

theorem le_foldl (as : List α) (n : Nat) : n ≤ as.foldl step n := by
  induction as generalizing n with
  | nil => exact Nat.le_refl n
  | cons a as ih => exact (hstep n a).trans (ih _)

/-- A number that only grows stays below a bound if it ends below it, so a check after each step
    finds what a check at the end finds. -/
theorem foldlM_of_le_step (bound : Nat) (as : List α) {n : Nat} (hn : n < bound) :
    as.foldlM (fun n a => if step n a < bound then some (step n a) else none) n =
      if as.foldl step n < bound then some (as.foldl step n) else none := by
  induction as generalizing n with
  | nil => simp [hn]
  | cons a as ih =>
    rw [List.foldlM_cons, List.foldl_cons]
    by_cases hnext : step n a < bound
    · simpa [hnext] using ih hnext
    · have hend : ¬ as.foldl step (step n a) < bound :=
        fun hlt => hnext ((le_foldl hstep as _).trans_lt hlt)
      simp [hnext, hend]

end Bounded

/-- A column is read as its number, if that stays below the bound. -/
theorem readColumn?_eq (letters : List Char) :
    readColumn? letters =
      if columnNumber letters < addressBound then some (columnNumber letters) else none := by
  have hstep (n : Nat) (c : Char) : n ≤ n * 26 + letterValue c := by omega
  exact foldlM_of_le_step hstep addressBound letters (by decide)

namespace Position

/-! ## Addresses of the grid -/

/-- The address of a cell of the grid: one to four letters, then a number from 1 to 9999, which may
    have zeros in front. -/
def IsGridAddress (text : String) : Prop :=
  ∃ letters digits : List Char, text.toList = letters ++ digits ∧
    (∀ c ∈ letters, isLetter c) ∧ (∀ c ∈ digits, Decimal.isDigit c) ∧
    (1 ≤ letters.length ∧ letters.length ≤ 4) ∧
    (1 ≤ Digits.value digits ∧ Digits.value digits ≤ 9999)

theorem isShape_of_ofAddress {s : String} {p : Position} (h : ofAddress s = .ok p) : IsShape s := by
  by_contra hshape
  rw [IsShape, Bool.not_eq_true] at hshape
  simp [ofAddress, hshape] at h

theorem length_le_four_iff {letters : List Char} (h : ∀ c ∈ letters, isLetter c) :
    letters.length ≤ 4 ↔ columnNumber letters ≤ gridCols := by
  obtain ⟨hlow, hhigh⟩ := columnNumber_bounds h
  have hcols : gridCols = 475254 := rfl
  constructor
  · intro hlength
    have hpow : 26 ^ (letters.length + 1) ≤ 26 ^ 5 :=
      Nat.pow_le_pow_right (by decide) (Nat.succ_le_succ hlength)
    omega
  · intro hcol
    by_contra hlength
    have hpow : 26 ^ 5 ≤ 26 ^ letters.length :=
      Nat.pow_le_pow_right (by decide) (Nat.lt_of_not_le hlength)
    omega

/-- Letters and digits are the address of a cell of the grid if neither are too many. -/
theorem exists_ofAddress_iff {letters digits : List Char} (hletters : ∀ c ∈ letters, isLetter c)
    (hdigits : ∀ c ∈ digits, Decimal.isDigit c) (hl : letters ≠ []) (hd : digits ≠ []) {s : String}
    (hs : s.toList = letters ++ digits) :
    (∃ p, ofAddress s = .ok p ∧ p.inGrid) ↔
      letters.length ≤ 4 ∧ 1 ≤ Digits.value digits ∧ Digits.value digits ≤ 9999 := by
  have hread := toOption_ofAddress hletters hdigits hl hd hs
  have hrows : gridRows = 9999 := rfl
  have hcols : gridCols = 475254 := rfl
  have hbound : addressBound = 18446744073709551616 := rfl
  rw [readColumn?_eq, Digits.read_eq_value] at hread
  rw [length_le_four_iff hletters]
  constructor
  · rintro ⟨p, hp, hgrid⟩
    rw [hp] at hread
    simp only [inGrid, Bool.and_eq_true, decide_eq_true_eq] at hgrid
    split at hread
    · simp only [Except.toOption, Option.bind_some] at hread
      split_ifs at hread
      obtain rfl := Option.some.inj hread
      dsimp only at hgrid
      omega
    · simp [Except.toOption] at hread
  · rintro ⟨hcol, hone, hrow⟩
    refine ⟨⟨Digits.value digits - 1, columnNumber letters - 1⟩, toOption_eq_some_iff.1 ?_, ?_⟩
    · rw [hread, if_pos (by omega), Option.bind_some, if_neg (by omega), if_neg (by omega)]
    · simp only [inGrid, Bool.and_eq_true, decide_eq_true_eq]
      omega

/-- The texts that lead to a cell of the grid are its addresses, with blanks at the ends. -/
theorem exists_ofLocation_iff {s : String} :
    (∃ p, ofLocation s = .ok p) ↔ IsGridAddress (trim s) := by
  simp only [ofLocation_eq_ok_iff]
  constructor
  · rintro ⟨p, hp, hgrid⟩
    obtain ⟨letters, digits, hs, ⟨hl, hd⟩, hletters, hdigits⟩ := (isShape_of_ofAddress hp).split
    obtain ⟨hfour, hrow⟩ := (exists_ofAddress_iff hletters hdigits hl hd hs).1 ⟨p, hp, hgrid⟩
    exact ⟨_, _, hs, hletters, hdigits, ⟨List.length_pos_iff.2 hl, hfour⟩, hrow⟩
  · rintro ⟨letters, digits, hs, hletters, hdigits, ⟨hone, hfour⟩, hrow⟩
    have hd : digits ≠ [] := by
      rintro rfl
      exact absurd hrow.1 (by decide)
    exact (exists_ofAddress_iff hletters hdigits (List.length_pos_iff.1 hone) hd hs).2
      ⟨hfour, hrow⟩

end Position

end Spreadsheet
