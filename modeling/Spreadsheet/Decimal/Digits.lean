/-!
# Decimal digits of natural numbers

Numbers here may have a million digits, so nothing in this file walks them one digit at a time.
Every function halves its number at a power `10 ^ 2 ^ k` and works down the ladder of these powers.

* `Digits.count` is the number of digits, `Digits.trailingZeros` the number of zeros at the end.
* `Digits.print` writes a number without leading zeros.
* `Digits.read` reads a digit string of any length.
-/

namespace Spreadsheet.Digits

/-! ## The ladder of powers -/

/-- `ladder k` is `10 ^ 2 ^ (k - 1), …, 10 ^ 4, 10 ^ 2, 10 ^ 1`. -/
def ladder : Nat → List Nat
  | 0 => []
  | k + 1 => Nat.pow 10 (Nat.pow 2 k) :: ladder k

/-- A height whose ladder splits every number up to `n`: `n < 10 ^ 2 ^ height n`, because `n` has at
    most `log₂ n / 3 + 1` digits. -/
def height (n : Nat) : Nat :=
  (n.log2 / 3 + 1).log2 + 1

/-! ## Measuring -/

/-- The exponent of the leading digit of a number that the ladder splits. -/
def leadAbove : (powers : List Nat) → Nat → Nat
  | [], _ => 0
  | p :: powers, n =>
    if p ≤ n then Nat.pow 2 powers.length + leadAbove powers (n / p) else leadAbove powers n

/-- The number of decimal digits of `n`; zero has one. -/
def count (n : Nat) : Nat :=
  leadAbove (ladder (height n)) n + 1

/-- The number of zeros at the end of a positive number that the ladder splits. -/
def zerosBelow : (powers : List Nat) → Nat → Nat
  | [], _ => 0
  | p :: powers, n =>
    if n % p = 0 then Nat.pow 2 powers.length + zerosBelow powers (n / p) else zerosBelow powers n

/-- The exponent of the largest power of ten that divides `n`, for positive `n`. -/
def trailingZeros (n : Nat) : Nat :=
  zerosBelow (ladder (height n)) n

/-! ## Writing -/

/-- The character of a digit. -/
def digitChar (d : Nat) : Char :=
  Char.ofNat ('0'.toNat + d)

/-- The digits of `n`, padded with zeros on the left to `2 ^ powers.length` places. -/
def printPadded : (powers : List Nat) → Nat → List Char
  | [], n => [digitChar n]
  | p :: powers, n => printPadded powers (n / p) ++ printPadded powers (n % p)

/-- The digits of `n` without leading zeros; zero is `0`. -/
def print (n : Nat) : List Char :=
  if n = 0 then ['0'] else (printPadded (ladder (height n)) n).dropWhile (· == '0')

/-- The digits of `n` as a text. -/
def text (n : Nat) : String :=
  String.ofList (print n)

/-! ## Reading -/

/-- The value of a digit character. -/
def digitValue (c : Char) : Nat :=
  c.toNat - '0'.toNat

/-- The number written by the first `2 ^ powers.length` digits, and the digits after them. -/
def readPadded : (powers : List Nat) → List Char → Nat × List Char
  | [], [] => (0, [])
  | [], c :: cs => (digitValue c, cs)
  | p :: powers, cs =>
    let (high, cs) := readPadded powers cs
    let (low, cs) := readPadded powers cs
    (high * p + low, cs)

/-- The number written by a digit string; leading zeros are allowed and no digits are zero. -/
def read (cs : List Char) : Nat :=
  let k := cs.length.log2 + 1
  (readPadded (ladder k) (List.replicate (Nat.pow 2 k - cs.length) '0' ++ cs)).1

end Spreadsheet.Digits
