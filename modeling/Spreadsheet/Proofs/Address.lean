import Spreadsheet.Proofs.Position

/-!
# Addresses and positions, one to one

Column letters are digits from 1 to 26, so a column has one row of letters although there is no zero
to pad with. A row has many texts, but one without zeros in front. Apart from these zeros and from
the case of the letters, an address is what its position is written as.

Results:
* `columnLetters_columnNumber`: letters are the column of their number.
* `checkedNumber?_eq`: a number that is built up in checked arithmetic fails if it is too large at
  the end, and in no other case.
* `IsAddress`, `exists_ofAddress_iff_isAddress`: the texts that are read as a position.
* `address_of_isAddress`: what the position of a text is written as.
* `address_one_to_one`: both directions, and the addresses of the grid.
-/

namespace Spreadsheet

/-! ## Letters of a number -/

theorem letter_letterValue {c : Char} (h : isLetter c) :
    letter (letterValue c - 1) = c.toUpper := by
  have hc := ascii_of_isLetter h
  revert h
  refine forall_ascii (p := fun c => isLetter c → letter (letterValue c - 1) = c.toUpper) ?_ hc
  decide

theorem columnNumber_pos {letters : List Char} (h : ∀ c ∈ letters, isLetter c)
    (hne : letters ≠ []) : 1 ≤ columnNumber letters := by
  have hlow := (columnNumber_bounds h).1
  have hpow : 26 ^ 1 ≤ 26 ^ letters.length :=
    Nat.pow_le_pow_right (by decide) (List.length_pos_iff.2 hne)
  omega

/-- Letters are the column of their number, but for their case. -/
theorem columnLetters_columnNumber {letters : List Char} (h : ∀ c ∈ letters, isLetter c)
    (hne : letters ≠ []) :
    columnLetters (columnNumber letters - 1) = letters.map Char.toUpper := by
  induction letters using List.reverseRecOn with
  | nil => exact absurd rfl hne
  | append_singleton letters c ih =>
    rw [List.forall_mem_append, List.forall_mem_singleton] at h
    obtain ⟨hletters, hc⟩ := h
    obtain ⟨hone, hlast⟩ := letterValue_spec hc
    rw [columnNumber_concat, List.map_append, List.map_singleton, ← letter_letterValue hc]
    by_cases hnil : letters = []
    · subst hnil
      have hfirst : columnNumber [] * 26 + letterValue c - 1 = letterValue c - 1 := by
        rw [columnNumber, List.foldl_nil, Nat.zero_mul, Nat.zero_add]
      rw [hfirst, columnLetters, if_pos (by omega)]
      rfl
    · -- the last letter is from 1 to 26, so one less does not reach the digit before it
      have hpos := columnNumber_pos hletters hnil
      have hmore : ¬ columnNumber letters * 26 + letterValue c - 1 < 26 := by omega
      have hdiv : (columnNumber letters * 26 + letterValue c - 1) / 26 = columnNumber letters := by
        omega
      have hmod : (columnNumber letters * 26 + letterValue c - 1) % 26 = letterValue c - 1 := by
        omega
      rw [columnLetters, if_neg hmore, hdiv, hmod, ih hletters hnil]

/-! ## Checked arithmetic -/

/-- One more digit after a number; a product or a sum that reaches the bound of an address fails. -/
def appendDigit? (base n digit : Nat) : Option Nat :=
  if n * base < addressBound then
    if n * base + digit < addressBound then some (n * base + digit) else none
  else none

/-- The number that digits write, built up in checked arithmetic. -/
def checkedNumber? (base : Nat) (digits : List Nat) : Option Nat :=
  digits.foldlM (appendDigit? base) 0

theorem appendDigit?_eq (base : Nat) :
    appendDigit? base = fun n digit =>
      if n * base + digit < addressBound then some (n * base + digit) else none := by
  funext n digit
  by_cases hsum : n * base + digit < addressBound
  · rw [appendDigit?, if_pos ((Nat.le_add_right _ _).trans_lt hsum)]
  · rw [appendDigit?, if_neg hsum, ite_self]

/-- Nothing fails on the way to a number below the bound. -/
theorem checkedNumber?_eq {base : Nat} (hbase : 1 ≤ base) (digits : List Nat) :
    checkedNumber? base digits =
      let n := digits.foldl (fun n digit => n * base + digit) 0
      if n < addressBound then some n else none := by
  have hstep (n digit : Nat) : n ≤ n * base + digit :=
    (Nat.le_mul_of_pos_right n hbase).trans (Nat.le_add_right _ _)
  rw [checkedNumber?, appendDigit?_eq]
  exact foldlM_of_le_step hstep addressBound digits (by decide)

theorem checkedNumber?_column {letters : List Char} (h : columnNumber letters < addressBound) :
    checkedNumber? 26 (letters.map letterValue) = some (columnNumber letters) := by
  rw [checkedNumber?_eq (by decide), List.foldl_map]
  exact if_pos h

theorem checkedNumber?_row {digits : List Char} (h : Digits.value digits < addressBound) :
    checkedNumber? 10 (digits.map Digits.digitValue) = some (Digits.value digits) := by
  have hvalue : (digits.map Digits.digitValue).foldl (fun n digit => n * 10 + digit) 0 =
      Digits.value digits := by
    rw [List.foldl_map, Digits.value]
    simp only [Nat.mul_comm]
  rw [checkedNumber?_eq (by decide), hvalue]
  exact if_pos h

namespace Position

/-! ## The texts that are addresses -/

/-- The text is letters and then digits, at least one of each. They write a column and a row,
    counted from one, that are below the bound. -/
structure IsAddress (text : String) (letters digits : List Char) : Prop where
  toList_eq : text.toList = letters ++ digits
  letters_ne : letters ≠ []
  digits_ne : digits ≠ []
  letters_spec : ∀ c ∈ letters, isLetter c
  digits_spec : ∀ c ∈ digits, Decimal.isDigit c
  column_lt : columnNumber letters < addressBound
  row_pos : 1 ≤ Digits.value digits
  row_lt : Digits.value digits < addressBound

/-- What an address is read as. -/
theorem IsAddress.ofAddress_eq {text : String} {letters digits : List Char}
    (h : IsAddress text letters digits) :
    ofAddress text = .ok ⟨Digits.value digits - 1, columnNumber letters - 1⟩ := by
  apply toOption_eq_some_iff.1
  rw [toOption_ofAddress h.letters_spec h.digits_spec h.letters_ne h.digits_ne h.toList_eq,
    readColumn?_eq, if_pos h.column_lt, Option.bind_some, Digits.read_eq_value,
    if_neg (Nat.not_le.2 h.row_lt), if_neg (Nat.one_le_iff_ne_zero.1 h.row_pos)]

theorem exists_isAddress_of_ofAddress {text : String} {p : Position} (h : ofAddress text = .ok p) :
    ∃ letters digits, IsAddress text letters digits := by
  obtain ⟨letters, digits, hs, ⟨hl, hd⟩, hletters, hdigits⟩ := (isShape_of_ofAddress h).split
  have hread := toOption_ofAddress hletters hdigits hl hd hs
  rw [h, readColumn?_eq, Digits.read_eq_value] at hread
  split at hread
  · rename_i hcolumn
    simp only [Except.toOption, Option.bind_some] at hread
    split_ifs at hread with hlarge hzero
    exact ⟨_, _, hs, hl, hd, hletters, hdigits, hcolumn, Nat.one_le_iff_ne_zero.2 hzero,
      Nat.not_le.1 hlarge⟩
  · simp [Except.toOption] at hread

theorem exists_ofAddress_iff_isAddress {text : String} :
    (∃ p, ofAddress text = .ok p) ↔ ∃ letters digits, IsAddress text letters digits := by
  constructor
  · rintro ⟨p, hp⟩
    exact exists_isAddress_of_ofAddress hp
  · rintro ⟨letters, digits, h⟩
    exact ⟨_, h.ofAddress_eq⟩

/-- The position of an address is written with its letters in upper case and without the zeros
    before its row. -/
theorem address_of_isAddress {text : String} {letters digits : List Char} {p : Position}
    (h : IsAddress text letters digits) (hp : ofAddress text = .ok p) :
    p.address.toList = letters.map Char.toUpper ++ digits.dropWhile (· == '0') := by
  obtain rfl : ⟨Digits.value digits - 1, columnNumber letters - 1⟩ = p :=
    Except.ok.inj (h.ofAddress_eq.symm.trans hp)
  rw [address, String.toList_ofList, columnLetters_columnNumber h.letters_spec h.letters_ne,
    Nat.sub_add_cancel h.row_pos,
    Digits.print_value h.digits_spec (Nat.one_le_iff_ne_zero.1 h.row_pos)]

/-! ## Both directions -/

/-- Positions and addresses correspond. A position below the bound is read off its address. A text
    is read as a position exactly if it is an address; neither its column nor its row overflows on
    the way, and its position is written as the text in upper case without zeros before the row. A
    text means a cell of the grid exactly if it is, without the blanks around it, one to four
    letters and a number from 1 to 9999. -/
theorem address_one_to_one :
    (∀ p : Position, p.row < addressBound - 1 → p.col < addressBound - 1 →
      ofAddress p.address = .ok p) ∧
    (∀ text, (∃ p, ofAddress text = .ok p) ↔ ∃ letters digits, IsAddress text letters digits) ∧
    (∀ text letters digits p, IsAddress text letters digits → ofAddress text = .ok p →
      checkedNumber? 26 (letters.map letterValue) = some (p.col + 1) ∧
      checkedNumber? 10 (digits.map Digits.digitValue) = some (p.row + 1) ∧
      p.address.toList = letters.map Char.toUpper ++ digits.dropWhile (· == '0')) ∧
    ∀ text, (∃ p, ofLocation text = .ok p) ↔ IsGridAddress (trim text) := by
  refine ⟨fun p hrow hcol => ofAddress_address (by omega) (by omega),
    fun _ => exists_ofAddress_iff_isAddress, fun text letters digits p h hp => ?_,
    fun _ => exists_ofLocation_iff⟩
  have hcolumn := columnNumber_pos h.letters_spec h.letters_ne
  have hposition : ⟨Digits.value digits - 1, columnNumber letters - 1⟩ = p :=
    Except.ok.inj (h.ofAddress_eq.symm.trans hp)
  refine ⟨?_, ?_, address_of_isAddress h hp⟩
  · rw [checkedNumber?_column h.column_lt, ← hposition, Nat.sub_add_cancel hcolumn]
  · rw [checkedNumber?_row h.row_lt, ← hposition, Nat.sub_add_cancel h.row_pos]

end Position

end Spreadsheet
