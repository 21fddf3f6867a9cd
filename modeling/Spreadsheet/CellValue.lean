import Spreadsheet.Decimal.Text
import Spreadsheet.ErrorKind

/-!
# Values of cells

* `CellValue` is what a cell shows: a number, a text or an error.
* `CellValue.agrees` is the equality by which a change is told: it ignores the pair that stands
  for a number and the detail of an error.
-/

namespace Spreadsheet

/-- The value of a cell that has one. -/
inductive CellValue where
  | number (n : Decimal)
  | text (s : String)
  | error (e : CellError)
deriving DecidableEq, Repr

namespace CellValue

/-- The error that a computation produces. -/
def standardError (kind : ErrorKind) : CellValue :=
  error (CellError.standard kind)

/-- The number, if the value is one (`as_number`). -/
def number? : CellValue → Option Decimal
  | number n => some n
  | _ => none

/-- The kind of error, if the value is one (`error_kind`). -/
def errorKind? : CellValue → Option ErrorKind
  | error e => some e.kind
  | _ => none

/-- The text shown for a value. -/
def display : CellValue → String
  | number n => n.toText
  | text s => s
  | error e => e.kind.spelling

/-- The same value (`same_as`). Numbers are the same if they are equal, whatever their pairs, and
    errors are the same if their kinds are. -/
def same : CellValue → CellValue → Bool
  | number a, number b => a.normalize == b.normalize
  | error a, error b => a.kind == b.kind
  | a, b => a == b

/-- The same value, or no value on both sides (`values_match`). -/
def agrees : Option CellValue → Option CellValue → Bool
  | none, none => true
  | some a, some b => a.same b
  | _, _ => false

end CellValue

end Spreadsheet
