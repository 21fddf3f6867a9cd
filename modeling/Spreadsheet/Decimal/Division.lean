import Spreadsheet.Decimal.Basic

/-!
# Division of decimals

A quotient is found in two steps. Long division gives up to 100 digits and rounds the last one half
up, away from zero. The quotient is then cut to 28 digits, where only a positive number is rounded:
a negative one drops its further digits.

* `Decimal.longQuotient` is the first step, on the magnitudes.
* `Decimal.cut` is the second step.
* `Decimal.div` is both.
-/

namespace Spreadsheet.Decimal

/-- The most digits that long division finds. -/
def workingDigits : Nat := 100

/-- The most digits that a quotient keeps (`DIVISION_PRECISION`). -/
def quotientDigits : Nat := 28

/-- The least `k` with `d ≤ n * 10 ^ k`, for positive `n`: the number of zeros to append to `n`
    before division by `d` gives a first digit. -/
def leadShift (n d : Nat) : Nat :=
  let k := Digits.count d - Digits.count n
  if n * Nat.pow 10 k < d then k + 1 else k

/-- Long division of positive numbers: the quotient `q` and the number of places `k` after its
    point, so that `q * 10 ^ (-k)` is `n / d` to `workingDigits` digits with the last one rounded
    half up. A quotient with more digits before the point keeps them all. -/
def divDigits (n d : Nat) : Nat × Nat :=
  let shift := leadShift n d
  let whole := n * Nat.pow 10 shift / d
  let places := shift + (workingDigits - Digits.count whole)
  let dividend := n * Nat.pow 10 places
  let quotient := dividend / d
  (if d ≤ 2 * (dividend % d) then quotient + 1 else quotient, places)

/-- The quotient of two decimals to `workingDigits` digits; a division by zero gives zero. -/
def longQuotient (x y : Decimal) : Decimal :=
  if x.unscaled = 0 then 0
  else
    let (quotient, places) := divDigits x.unscaled.natAbs y.unscaled.natAbs
    ⟨x.unscaled.sign * y.unscaled.sign * quotient, x.scale - y.scale + places⟩

/-- The number cut to at most `digits` digits (`with_prec`). The digits that are left out round a
    positive number half up and leave a negative one as it stands. -/
def cut (digits : Nat) (x : Decimal) : Decimal :=
  let extra := Digits.count x.unscaled.natAbs - digits
  if extra = 0 then x
  else
    let kept := x.unscaled.tdiv (pow10 extra)
    let rest := x.unscaled.tmod (pow10 extra)
    ⟨if pow10 extra ≤ 2 * rest then kept + 1 else kept, x.scale - extra⟩

/-- The quotient of two decimals to `quotientDigits` digits. -/
def div (x y : Decimal) : Decimal :=
  cut quotientDigits (longQuotient x y)

instance : Div Decimal := ⟨div⟩

end Spreadsheet.Decimal
