import Spreadsheet.Decimal.Basic
import Spreadsheet.Text.Blank

/-!
# Text of decimals

Numbers are read with an optional exponent and written without one.

* `Decimal.Literal` holds the parts of a number as written; `Decimal.Literal.read?` finds them.
* `Decimal.ofText?` is the number that a text denotes, if the text is a number in range.
* `Decimal.toText` is the one plain text of a number.
-/

namespace Spreadsheet.Decimal

/-- The character is one of `0` to `9`. -/
def isDigit (c : Char) : Bool :=
  '0' ≤ c && c ≤ '9'

/-! ## Reading -/

/-- An optional sign: whether it was `-`, and the characters after it. -/
def readSign : List Char → Bool × List Char
  | '-' :: cs => (true, cs)
  | '+' :: cs => (false, cs)
  | cs => (false, cs)

/-- A number as written: `[+-]? whole [. fraction] [(e|E) exponent]`. -/
structure Literal where
  negative : Bool
  whole : List Char
  fraction : List Char
  exponent : Option Int

namespace Literal

/-- The digits after a decimal point, if there is one, and the characters after them. -/
def readFraction : List Char → List Char × List Char
  | '.' :: cs => (cs.takeWhile isDigit, cs.dropWhile isDigit)
  | cs => ([], cs)

/-- An exponent that takes up the rest of the text: `none` if something else does, `some none` if
    there is no rest. -/
def readExponent? : List Char → Option (Option Int)
  | [] => some none
  | c :: cs =>
    if c == 'e' || c == 'E' then
      let (negative, digits) := readSign cs
      if digits.isEmpty || !digits.all isDigit then none
      else
        let n : Int := Digits.read digits
        some (some (if negative then -n else n))
    else
      none

/-- The parts of a text that is written as a number: at least one digit before the exponent, and
    nothing around it. -/
def read? (cs : List Char) : Option Literal :=
  let (negative, cs) := readSign cs
  let whole := cs.takeWhile isDigit
  let (fraction, cs) := readFraction (cs.dropWhile isDigit)
  if whole.isEmpty && fraction.isEmpty then none
  else (readExponent? cs).map fun exponent => ⟨negative, whole, fraction, exponent⟩

/-- The number without its exponent. -/
def mantissa (l : Literal) : Decimal :=
  let n : Int := Digits.read (l.whole ++ l.fraction)
  ⟨if l.negative then -n else n, l.fraction.length⟩

/-- The number that the parts denote, if it is in range. An exponent so large that no digits of this
    length can make up for it leaves zero as the only number in range. -/
def value? (l : Literal) : Option Decimal :=
  let m := l.mantissa
  let exponent := l.exponent.getD 0
  if maxExponent + l.whole.length + l.fraction.length < exponent.natAbs then
    if m.unscaled = 0 then some 0 else none
  else
    let x := normalize ⟨m.unscaled, m.scale - exponent⟩
    if x.inRange then some x else none

end Literal

/-- The number that the characters denote; blanks at the ends are ignored. -/
def ofChars? (cs : List Char) : Option Decimal :=
  (Literal.read? (trimBlank cs)).bind Literal.value?

/-- The number that a text denotes, in normal form (`parse_decimal`); blanks at the ends are
    ignored. -/
def ofText? (s : String) : Option Decimal :=
  ofChars? s.toList

/-! ## Writing -/

/-- The digits of `n * 10 ^ (-scale)` in plain notation: a point only before places that are not all
    zero, and one zero before a point that would come first. -/
def printPlain (n : Nat) (scale : Int) : List Char :=
  let digits := Digits.print n
  if scale ≤ 0 then digits ++ List.replicate scale.natAbs '0'
  else
    let places := scale.toNat
    if places < digits.length then
      digits.take (digits.length - places) ++ '.' :: digits.drop (digits.length - places)
    else
      '0' :: '.' :: (List.replicate (places - digits.length) '0' ++ digits)

/-- The characters of a number: its sign if negative, then plain notation of its normal form. -/
def toChars (x : Decimal) : List Char :=
  let x := normalize x
  let body := printPlain x.unscaled.natAbs x.scale
  if x.unscaled < 0 then '-' :: body else body

/-- The plain text of a number, the same for all pairs that denote it (`format_decimal`). -/
def toText (x : Decimal) : String :=
  String.ofList x.toChars

end Spreadsheet.Decimal
