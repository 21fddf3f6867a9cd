import Spreadsheet.Decimal.Basic
import Spreadsheet.ErrorKind
import Spreadsheet.Text.UpperCase

/-!
# Formula trees

A tree keeps everything that was written except blanks: the text of a number, the case of an
address, the quotes of a sheet name and every pair of parentheses. So it prints back as it was
typed.

* `Expr` is the type of trees.
* `Expr.targets` lists the references of a tree from left to right, in upper case.
-/

namespace Spreadsheet.Formula

/-- The binary operators (`Op`). -/
inductive Operator where
  | add
  | sub
  | mul
  | div
  | concat
deriving DecidableEq, Repr

/-- The character of an operator. -/
def Operator.char : Operator → Char
  | add => '+'
  | sub => '-'
  | mul => '*'
  | div => '/'
  | concat => '&'

/-- The operator with this character. -/
def Operator.ofChar? : Char → Option Operator
  | '+' => some add
  | '-' => some sub
  | '*' => some mul
  | '/' => some div
  | '&' => some concat
  | _ => none

/-- The signs that may stand before an operand (`UnaryOp`). -/
inductive Sign where
  | plus
  | minus
deriving DecidableEq, Repr

/-- The operator that is written like this sign. -/
def Sign.operator : Sign → Operator
  | plus => .add
  | minus => .sub

/-- The sign that is written like this operator. -/
def Operator.sign? : Operator → Option Sign
  | add => some .plus
  | sub => some .minus
  | _ => none

/-- The sheet of a qualified reference: its name without quotes, and whether quotes were written. -/
structure SheetName where
  name : String
  quoted : Bool
deriving DecidableEq, Repr

/-- A reference as written (`CellRef`); without a sheet it means the sheet of the formula. -/
structure Reference where
  sheet : Option SheetName
  address : String
deriving DecidableEq, Repr

/-- A formula without its equals sign. -/
inductive Expr where
  | number (text : String) (value : Decimal)
  | text (s : String)
  | error (kind : ErrorKind)
  | ref (r : Reference)
  | signed (sign : Sign) (operand : Expr)
  | binary (op : Operator) (left right : Expr)
  | group (inner : Expr)
deriving DecidableEq, Repr

/-! ## References -/

/-- What a reference points at, in upper case (an item of `extract_references`). -/
inductive Target where
  | here (address : String)
  | on (sheet address : String)
deriving DecidableEq, Repr

/-- The target of a reference. -/
def Reference.target (r : Reference) : Target :=
  match r.sheet with
  | none => .here (upper r.address)
  | some sheet => .on (upper sheet.name) (upper r.address)

/-- The references of a tree, from left to right. -/
def Expr.references : Expr → List Reference
  | number _ _ | text _ | error _ => []
  | ref r => [r]
  | signed _ operand => operand.references
  | binary _ left right => left.references ++ right.references
  | group inner => inner.references

/-- The targets of the references of a tree, from left to right, one for each occurrence
    (`extract_references`). -/
def Expr.targets (e : Expr) : List Target :=
  e.references.map Reference.target

end Spreadsheet.Formula
