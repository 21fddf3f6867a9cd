import Spreadsheet.Formula.Token

/-!
# Renaming a sheet inside a formula

* `Expr.mentions` tells whether a formula has a qualified reference to a sheet.
* `Expr.renameSheet` points such references at a new name, and gives every qualified reference of
  the formula quotes exactly where its name needs them.
-/

namespace Spreadsheet.Formula

/-- A sheet name needs quotes unless it is a name of ASCII letters, digits and underscores that does
    not start with a digit (`needs_quotes`). -/
def needsQuotes (name : String) : Bool :=
  match name.toList with
  | [] => true
  | c :: cs => !(isNameStart c && cs.all isNameChar)

/-- The names are the same in any case (`same_sheet`). -/
def sameSheet (a b : String) : Bool :=
  upper a == upper b

/-- The sheet has this name, in any case. -/
def SheetName.isNamed (s : SheetName) (sheet : String) : Bool :=
  sameSheet s.name sheet

/-- A qualified reference to `sheet` occurs in the tree (`references_sheet`). -/
def Expr.mentions (sheet : String) : Expr → Bool
  | number _ _ | text _ | error _ => false
  | ref r => r.sheet.any (·.isNamed sheet)
  | signed _ operand => operand.mentions sheet
  | binary _ left right => left.mentions sheet || right.mentions sheet
  | group inner => inner.mentions sheet

/-- The name `new` in place of `old`, with quotes exactly if the name needs them. -/
def SheetName.rename (old new : String) (s : SheetName) : SheetName :=
  let name := if s.isNamed old then new else s.name
  ⟨name, needsQuotes name⟩

/-- The reference with its sheet renamed (a case of `rename_sheet_refs`). -/
def Reference.renameSheet (old new : String) (r : Reference) : Reference :=
  { r with sheet := r.sheet.map (·.rename old new) }

/-- The tree with every qualified reference renamed (`rename_sheet_refs`). -/
def Expr.renameSheet (old new : String) : Expr → Expr
  | ref r => ref (r.renameSheet old new)
  | signed sign operand => signed sign (operand.renameSheet old new)
  | binary op left right => binary op (left.renameSheet old new) (right.renameSheet old new)
  | group inner => group (inner.renameSheet old new)
  | e => e

end Spreadsheet.Formula
