import Spreadsheet.CellValue
import Spreadsheet.Decimal.Division
import Spreadsheet.Formula.Expr
import Spreadsheet.Position

/-!
# Evaluating formulas

* `Scalar` is what flows between operators: unlike a cell's value it may be blank, and its errors
  have no detail.
* `Lookup` answers what the cells of a formula's own sheet and of other sheets hold.
* `Expr.scalar` evaluates a tree; `Expr.value` turns the outcome into the value of a cell.

Errors come before everything else: the leftmost operand that is an error, or a text spelled exactly
like one, decides the outcome of an operator.
-/

namespace Spreadsheet.Formula

/-- A value between operators (`Value`). -/
inductive Scalar where
  | blank
  | number (n : Decimal)
  | text (s : String)
  | error (kind : ErrorKind)
deriving DecidableEq, Repr

namespace Scalar

/-- The scalar of a cell's value (`from_cell`). -/
def ofCell : Option CellValue → Scalar
  | none => blank
  | some (.number n) => number n
  | some (.text s) => text s
  | some (.error e) => error e.kind

/-- The error of an operand (`as_error`); a text spelled exactly like an error is that error. -/
def error? : Scalar → Option ErrorKind
  | error kind => some kind
  | text s => ErrorKind.ofCanonical? s
  | _ => none

/-- The number of an operand (`to_number`). A blank is zero, and a text is the number it denotes. -/
def toNumber : Scalar → Except ErrorKind Decimal
  | blank => .ok 0
  | number n => .ok n
  | text s =>
    match Decimal.ofText? s with
    | some n => .ok n
    | none => .error .value
  | error kind => .error kind

/-- The text of an operand (`to_text`). -/
def toText : Scalar → String
  | blank => ""
  | number n => n.toText
  | text s => s
  | error kind => kind.spelling

end Scalar

/-- What the cells hold (`CellLookup`). A sheet that does not exist answers with a reference
    error. -/
structure Lookup where
  /-- The cell of the formula's own sheet. -/
  here : Position → Scalar
  /-- The cell of the sheet with this name. -/
  on : String → Position → Scalar

/-- What the cell of a reference holds (`resolve_ref`); outside the grid there is no cell. -/
def Lookup.read (lookup : Lookup) (r : Reference) : Scalar :=
  match Position.ofAddress r.address with
  | .error _ => .error .reference
  | .ok p =>
    if p.inGrid then
      match r.sheet with
      | none => lookup.here p
      | some sheet => lookup.on sheet.name p
    else
      .error .reference

/-! ## Operators -/

/-- A sign before an operand (a case of `evaluate_expr`). -/
def Sign.apply (sign : Sign) (v : Scalar) : Scalar :=
  match v.toNumber with
  | .error kind => .error (v.error?.getD kind)
  | .ok n =>
    match sign with
    | .plus => .number n
    | .minus => .number (-n).normalize

/-- The quotient of two numbers (`divide`). -/
def divide (x y : Decimal) : Except ErrorKind Decimal :=
  if y.unscaled = 0 then .error .division else .ok (x / y)

/-- The arithmetic of an operator; concatenation has none. -/
def Operator.arithmetic? : Operator → Option (Decimal → Decimal → Except ErrorKind Decimal)
  | add => some fun x y => .ok (x + y)
  | sub => some fun x y => .ok (x - y)
  | mul => some fun x y => .ok (x * y)
  | div => some divide
  | concat => none

/-- Arithmetic on operands without errors (`numeric`); the left one is made a number first. A result
    out of range is a type error. -/
def compute (f : Decimal → Decimal → Except ErrorKind Decimal) (left right : Scalar) : Scalar :=
  let result := do f (← left.toNumber) (← right.toNumber)
  match result with
  | .error kind => .error kind
  | .ok n => if n.inRange then .number n.normalize else .error .value

/-- An operator between two operands (a case of `evaluate_expr`). -/
def Operator.apply (op : Operator) (left right : Scalar) : Scalar :=
  match left.error? <|> right.error? with
  | some kind => .error kind
  | none =>
    match op.arithmetic? with
    | some f => compute f left right
    | none => .text (left.toText ++ right.toText)

/-! ## Trees -/

/-- The outcome of a tree (`evaluate_expr`). -/
def Expr.scalar (lookup : Lookup) : Expr → Scalar
  | number _ value => .number value
  | text s => .text s
  | error kind => .error kind
  | ref r => lookup.read r
  | signed sign operand => sign.apply (operand.scalar lookup)
  | binary op left right => op.apply (left.scalar lookup) (right.scalar lookup)
  | group inner => inner.scalar lookup

/-- The value that a cell shows for an outcome (the last step of `evaluate`): a blank is zero, and a
    text that starts with the spelling of an error is that error. -/
def Scalar.toCell : Scalar → CellValue
  | blank => .number 0
  | number n => .number n.normalize
  | text s =>
    match ErrorKind.ofStart? s with
    | some kind => .standardError kind
    | none => .text s
  | error kind => .standardError kind

/-- The value of a cell with this formula (`evaluate`). -/
def Expr.value (lookup : Lookup) (e : Expr) : CellValue :=
  (e.scalar lookup).toCell

end Spreadsheet.Formula
