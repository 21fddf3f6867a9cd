import Spreadsheet.CellValue
import Spreadsheet.Formula.Parser
import Spreadsheet.Formula.Printer

/-!
# Cells

A cell holds what the user typed and what it amounts to.

* `Cell` has three forms: nothing, a literal whose value is fixed by its content, and a formula
  whose value is filled in by the workbook.
* `Cell.ofContent` finds the form of a content. It tries, in this order: nothing, a text after a
  quote, a formula, a number, an error, a text.
-/

namespace Spreadsheet

/-- One place of the grid (`Cell`). -/
inductive Cell where
  /-- Nothing was typed; a formula may still refer to the cell. -/
  | blank
  /-- A number, a text or an error. -/
  | literal (content : String) (value : CellValue)
  /-- A formula, without a value until it is evaluated. -/
  | formula (content : String) (expr : Formula.Expr) (value : Option CellValue)
deriving Repr

/-- The kinds of content that a user can tell apart (`CellType`). -/
inductive CellKind where
  | empty
  | number
  | text
  | formula
  | error
deriving DecidableEq, Repr

namespace Cell

/-! ## Views -/

/-- The content as stored (`content`). -/
def content? : Cell → Option String
  | blank => none
  | literal content _ => some content
  | formula content _ _ => some content

/-- Something was typed (`has_content`). -/
def hasContent (c : Cell) : Bool :=
  c.content?.isSome

/-- The value, if there is one (`value`). -/
def value? : Cell → Option CellValue
  | blank => none
  | literal _ value => some value
  | formula _ _ value => value

/-- The formula, if the cell holds one that could be read (`expr`). -/
def expr? : Cell → Option Formula.Expr
  | formula _ expr _ => some expr
  | _ => none

/-- The targets of the formula's references, from left to right (`references`); none without a
    formula. -/
def targets (c : Cell) : List Formula.Target :=
  match c.expr? with
  | some expr => expr.targets
  | none => []

/-- The kind of content (`cell_type`). -/
def kind : Cell → CellKind
  | blank => .empty
  | literal _ (.number _) => .number
  | literal _ (.text _) => .text
  | literal _ (.error _) => .error
  | formula _ _ _ => .formula

/-! ## Content -/

/-- A formula, or the error of a text that is none (`update`, on an equals sign). -/
def ofFormula (content : String) : Cell :=
  match Formula.parse content with
  | .ok expr => formula content expr none
  | .error e => literal content (.error ⟨.parse, e.message⟩)

/-- A number, an error in any case, or else a text (`update`, without a mark in front). An error is
    stored in its canonical spelling. -/
def ofLiteral (content : String) : Cell :=
  match Decimal.ofText? content with
  | some n => literal content (.number n)
  | none =>
    match ErrorKind.ofLiteral? content with
    | some kind => literal kind.spelling (.error ⟨kind, kind.spelling⟩)
    | none => literal content (.text content)

/-- The cell with a content that has no blanks at its ends (`update`). A quote before a text keeps
    it a text; a quote alone is nothing. -/
def ofTrimmed (content : String) : Cell :=
  match content.toList with
  | [] => blank
  | ['\''] => blank
  | '\'' :: text => literal content (.text (String.ofList text))
  | '=' :: _ => ofFormula content
  | _ => ofLiteral content

/-- The cell with this content (`update`, `from_content`); blanks at its ends are ignored. -/
def ofContent : Option String → Cell
  | none => blank
  | some content => ofTrimmed (trim content)

/-! ## Values of formulas -/

/-- The cell with another value, whatever it was typed as (`set_value`); a blank cell has no place
    for one. That only formulas get values is for the callers to see to. -/
def evaluated (value : CellValue) : Cell → Cell
  | blank => blank
  | literal content _ => literal content value
  | formula content expr _ => formula content expr (some value)

end Cell

end Spreadsheet
