import Spreadsheet.Formula.Expr

/-!
# Printing formulas

A tree prints as it was written, without the blanks. Parentheses are nodes of the tree, so the
printer adds none.
-/

namespace Spreadsheet.Formula

/-- A sheet name, with its quotes if it has any (`format_sheet_name`). -/
def SheetName.print (sheet : SheetName) : List Char :=
  if sheet.quoted then '\'' :: sheet.name.toList ++ ['\''] else sheet.name.toList

/-- A reference, with its sheet if it has one (a case of `format_expr`). -/
def Reference.print (r : Reference) : List Char :=
  match r.sheet with
  | none => r.address.toList
  | some sheet => sheet.print ++ '!' :: r.address.toList

/-- A tree without an equals sign (`format_expr`). -/
def Expr.print : Expr → List Char
  | number written _ => written.toList
  | text s => '"' :: s.toList ++ ['"']
  | error kind => kind.spelling.toList
  | ref r => r.print
  | signed sign operand => sign.operator.char :: operand.print
  | binary op left right => left.print ++ op.char :: right.print
  | group inner => '(' :: inner.print ++ [')']

/-- The text of a formula, with its equals sign (`format_formula`). -/
def Expr.toText (e : Expr) : String :=
  String.ofList ('=' :: e.print)

end Spreadsheet.Formula
