import Spreadsheet.Decimal.Text

/-!
# JSON numbers

A number has to fit a double. Its size is judged from a significand of at most 64 bits, the longest
that its leading digits allow, and a power of ten: each is rounded to a double, and their product
may not round to infinity.

* `Json.readNumber?` reads one number off a text by the strict grammar.
* `Json.NumberParts.fits` is the bound on its size.
-/

namespace Spreadsheet.Json

open Decimal (isDigit readSign)

/-! ## Doubles -/

/-- The bits of a double's significand. -/
def doublePrecision : Nat := 53

/-- The number nearest to `n` with at most `doublePrecision` significant bits; a tie goes to the
    even significand. -/
def roundToDouble (n : Nat) : Nat :=
  let extra := n.log2 + 1 - doublePrecision
  if extra = 0 then n
  else
    let unit := Nat.pow 2 extra
    let kept := n / unit
    let rest := n % unit
    let up := unit < 2 * rest || (2 * rest == unit && kept % 2 == 1)
    (if up then kept + 1 else kept) * unit

/-- The least number that rounds to infinity: half a unit above the largest double. -/
def doubleOverflow : Nat :=
  Nat.pow 2 1024 - Nat.pow 2 970

/-- The largest exponent of a power of ten that is a double. -/
def maxPowerOfTen : Nat := 308

/-- The significand times `10 ^ exponent` is finite, each factor a double. -/
def fitsDouble (significand : Nat) (exponent : Int) : Bool :=
  significand == 0 || exponent < 0 ||
    (exponent ≤ maxPowerOfTen &&
      roundToDouble significand * roundToDouble (Nat.pow 10 exponent.toNat) < doubleOverflow)

/-! ## Size of a number -/

/-- The digits and the exponent of a number as written. -/
structure NumberParts where
  whole : List Char
  fraction : List Char
  exponent : Int

/-- Significands stay below this bound. -/
def significandBound : Nat := Nat.pow 2 64

/-- The significand continued by the leading digits of `digits` as far as it stays below
    `significandBound`, and the digits after them. -/
def takeDigits (significand : Nat) : List Char → Nat × List Char
  | [] => (significand, [])
  | c :: cs =>
    let next := significand * 10 + Digits.digitValue c
    if next < significandBound then takeDigits next cs else (significand, c :: cs)

/-- The number is within the size of a double. A digit before the point that the significand has no
    room for raises the exponent; one after the point that it has room for lowers it. -/
def NumberParts.fits (n : NumberParts) : Bool :=
  let (significand, dropped) := takeDigits 0 n.whole
  let (significand, ignored) := takeDigits significand n.fraction
  fitsDouble significand
    (n.exponent + dropped.length - (n.fraction.length - ignored.length : Nat))

/-! ## Reading -/

/-- The digits before the point: a zero stands alone. -/
def readWhole? : List Char → Option (List Char × List Char)
  | '0' :: cs => some (['0'], cs)
  | cs =>
    let digits := cs.takeWhile isDigit
    if digits.isEmpty then none else some (digits, cs.dropWhile isDigit)

/-- The point and the digits after it, at least one, or nothing. -/
def readFraction? : List Char → Option (List Char × List Char)
  | '.' :: cs =>
    let digits := cs.takeWhile isDigit
    if digits.isEmpty then none else some (digits, cs.dropWhile isDigit)
  | cs => some ([], cs)

/-- The exponent, with at least one digit, or nothing. -/
def readExponent? : List Char → Option (Int × List Char)
  | [] => some (0, [])
  | c :: cs =>
    if c == 'e' || c == 'E' then
      let (negative, cs) := readSign cs
      let digits := cs.takeWhile isDigit
      let n : Int := Digits.read digits
      if digits.isEmpty then none
      else some (if negative then -n else n, cs.dropWhile isDigit)
    else
      some (0, c :: cs)

theorem length_dropDigits_le (cs : List Char) : (cs.dropWhile isDigit).length ≤ cs.length :=
  (List.dropWhile_suffix isDigit).length_le

theorem readWhole?_rest_lt {cs digits rest : List Char} (h : readWhole? cs = some (digits, rest)) :
    rest.length < cs.length := by
  unfold readWhole? at h
  split at h
  · simp only [Option.some.injEq, Prod.mk.injEq] at h
    simp [h.2]
  · dsimp only at h
    split at h
    · simp at h
    · rename_i hdigits
      simp only [Option.some.injEq, Prod.mk.injEq] at h
      have hsplit := congrArg List.length (List.takeWhile_append_dropWhile (p := isDigit) (l := cs))
      simp only [List.length_append] at hsplit
      have hpos : 0 < (cs.takeWhile isDigit).length := by
        simpa [List.length_pos_iff, List.isEmpty_iff] using hdigits
      rw [← h.2]
      omega

theorem readFraction?_rest_le {cs digits rest : List Char}
    (h : readFraction? cs = some (digits, rest)) : rest.length ≤ cs.length := by
  unfold readFraction? at h
  split at h
  · rename_i after
    have hle := length_dropDigits_le after
    dsimp only at h
    split at h
    · simp at h
    · simp only [Option.some.injEq, Prod.mk.injEq] at h
      rw [← h.2, List.length_cons]
      omega
  · simp only [Option.some.injEq, Prod.mk.injEq] at h
    exact Nat.le_of_eq (congrArg List.length h.2.symm)

theorem length_readSign_le (cs : List Char) : (readSign cs).2.length ≤ cs.length := by
  unfold readSign
  split <;> simp

theorem readExponent?_rest_le {cs rest : List Char} {n : Int}
    (h : readExponent? cs = some (n, rest)) : rest.length ≤ cs.length := by
  unfold readExponent? at h
  split at h
  · simp only [Option.some.injEq, Prod.mk.injEq] at h
    exact Nat.le_of_eq (congrArg List.length h.2.symm)
  · rename_i c after
    split at h
    · have hsign := length_readSign_le after
      have hle := length_dropDigits_le (readSign after).2
      dsimp only at h
      split at h
      · simp at h
      · simp only [Option.some.injEq, Prod.mk.injEq] at h
        rw [← h.2, List.length_cons]
        omega
    · simp only [Option.some.injEq, Prod.mk.injEq] at h
      exact Nat.le_of_eq (congrArg List.length h.2.symm)

/-- A number without its sign: its parts and the characters after it. -/
def readParts? (cs : List Char) : Option (NumberParts × List Char) := do
  let (whole, cs) ← readWhole? cs
  let (fraction, cs) ← readFraction? cs
  let (exponent, cs) ← readExponent? cs
  return (⟨whole, fraction, exponent⟩, cs)

theorem readParts?_rest_lt {cs rest : List Char} {parts : NumberParts}
    (h : readParts? cs = some (parts, rest)) : rest.length < cs.length := by
  simp only [readParts?, Option.bind_eq_bind, Option.bind_eq_some_iff, Option.pure_def,
    Option.some.injEq, Prod.mk.injEq] at h
  obtain ⟨⟨_, _⟩, hwhole, ⟨_, _⟩, hfraction, ⟨_, _⟩, hexponent, -, rfl⟩ := h
  have h₁ := readWhole?_rest_lt hwhole
  have h₂ := readFraction?_rest_le hfraction
  have h₃ := readExponent?_rest_le hexponent
  exact Nat.lt_of_le_of_lt h₃ (Nat.lt_of_le_of_lt h₂ h₁)

/-- The characters without a minus sign at the front. -/
def dropMinus : List Char → List Char
  | '-' :: cs => cs
  | cs => cs

/-- A number at the front of a text: its characters and those after it. -/
def readNumber? (cs : List Char) : Option (List Char × List Char) :=
  match readParts? (dropMinus cs) with
  | none => none
  | some (parts, rest) =>
    if parts.fits then some (cs.take (cs.length - rest.length), rest) else none

theorem readNumber?_rest_lt {cs text rest : List Char} (h : readNumber? cs = some (text, rest)) :
    rest.length < cs.length := by
  unfold readNumber? at h
  split at h
  · simp at h
  · rename_i hparts
    have hlt := readParts?_rest_lt hparts
    have hle : (dropMinus cs).length ≤ cs.length := by
      unfold dropMinus
      split <;> simp
    split at h
    · simp only [Option.some.injEq, Prod.mk.injEq] at h
      rw [← h.2]
      omega
    · simp at h

end Spreadsheet.Json
