import Spreadsheet.Decimal.Digits

/-!
# Exact decimals

A number of the spreadsheet is `unscaled * 10 ^ (-scale)`, exactly. One number has many such pairs;
the normal form keeps the shortest `unscaled`.

* `Decimal.normalize` brings a pair into normal form.
* `Decimal.inRange` bounds the exponent of the leading digit.
* The ring operations are exact and leave the normal form to their caller.
-/

namespace Spreadsheet

/-- The number `unscaled * 10 ^ (-scale)`. -/
structure Decimal where
  unscaled : Int
  scale : Int
deriving DecidableEq, Repr

namespace Decimal

instance : Zero Decimal := ⟨⟨0, 0⟩⟩

/-- `10 ^ n` as a factor of an unscaled integer. -/
def pow10 (n : Nat) : Int :=
  ((Nat.pow 10 n : Nat) : Int)

/-! ## Normal form -/

/-- A pair is in normal form if it is zero with scale zero or has no zero at the end. -/
def IsNormal (x : Decimal) : Prop :=
  x = 0 ∨ x.unscaled % 10 ≠ 0

/-- The same number without zeros at the end of `unscaled` (`normalize`). -/
def normalize (x : Decimal) : Decimal :=
  if x.unscaled = 0 then 0
  else
    let zeros := Digits.trailingZeros x.unscaled.natAbs
    ⟨x.unscaled / pow10 zeros, x.scale - zeros⟩

/-! ## Range -/

/-- The largest distance from zero of the exponent of a leading digit (`MAX_EXPONENT`). -/
def maxExponent : Nat := 999999

/-- The exponent of the leading digit: `d` in `n.nnn * 10 ^ d`. -/
def leadExponent (x : Decimal) : Int :=
  (Digits.count x.unscaled.natAbs : Int) - 1 - x.scale

/-- A number is in range if it is zero or its leading exponent is at most `maxExponent` away from
    zero (`in_range`). -/
def inRange (x : Decimal) : Bool :=
  x.unscaled == 0 || x.leadExponent.natAbs ≤ maxExponent

/-! ## Exact arithmetic -/

/-- The unscaled integer of `x` at a scale no smaller than its own. -/
def unscaledAt (x : Decimal) (scale : Int) : Int :=
  x.unscaled * pow10 (scale - x.scale).toNat

instance : Add Decimal where
  add x y :=
    let scale := max x.scale y.scale
    ⟨x.unscaledAt scale + y.unscaledAt scale, scale⟩

instance : Neg Decimal where
  neg x := ⟨-x.unscaled, x.scale⟩

instance : Sub Decimal where
  sub x y := x + -y

instance : Mul Decimal where
  mul x y := ⟨x.unscaled * y.unscaled, x.scale + y.scale⟩

end Decimal

end Spreadsheet
