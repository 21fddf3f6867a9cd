import Spreadsheet.Position
import Spreadsheet.Text.UpperCase

/-!
# Cell keys

A cell of a workbook is named by its sheet and its position. Sheet names ignore case, so a key holds
the upper-case form of the name; `CellKey.on` is the one way to make a key from a name as written.
-/

namespace Spreadsheet

/-- The name of a cell across all sheets of a workbook (`CellId`). -/
structure CellKey where
  /-- The sheet's name in upper case. -/
  sheet : String
  position : Position
deriving DecidableEq, Hashable, Repr

namespace CellKey

/-- The cell at a position of the sheet with this name, in any case (`new`). -/
def on (sheet : String) (position : Position) : CellKey :=
  ⟨upper sheet, position⟩

/-- The cell lies on the sheet with this name, in any case (`on_sheet`). -/
def isOn (key : CellKey) (sheet : String) : Bool :=
  key.sheet == upper sheet

/-- The key as shown: the sheet, an exclamation mark and the address. -/
def display (key : CellKey) : String :=
  key.sheet ++ "!" ++ key.position.address

/-- By sheet, code point by code point, then row-major. -/
def compare : CellKey → CellKey → Ordering :=
  compareLex (compareOn sheet) fun a b => a.position.compare b.position

end CellKey

end Spreadsheet
