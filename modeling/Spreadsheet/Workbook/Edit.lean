import Spreadsheet.Formula.Rename
import Spreadsheet.Workbook.Recalculation

/-!
# Editing a workbook

Each edit runs to its end: contents, graph, cycles, values. It answers with the workbook after it
and what listeners are told; an edit that fails changes nothing.

* `Outcome` is the answer of an edit.
* `addSheet`, `deleteSheet`, `renameSheet`, `moveSheet` and `copySheet` edit the list of sheets.
* `write` edits a cell.
-/

namespace Spreadsheet

/-- The answer of an edit that succeeds. -/
structure Outcome (α : Type) where
  result : α
  book : Workbook
  announcements : List Announcement

namespace Workbook

open Formula (Expr)

/-! ## Cells -/

/-- Writes a content to the cell at `p` of the sheet at `index` (`set_cell_at`); no content clears
    the cell. -/
def writeAt (book : Workbook) (index : Nat) (p : Position) (content : Option String) :
    Workbook × List Announcement :=
  match book.sheets[index]? with
  | none => (book, [])
  | some sheet =>
    let key := CellKey.on sheet.name p
    let changes := Changes.none.touch key (sheet.value? p)
    let book := book.modifySheet index (·.write p content)
    let book := { book with graph := book.graph.add key }
    (book.link key).settle changes [key]

/-- Writes a content to a cell (`set_cell_contents`); no content clears it. -/
def write (book : Workbook) (sheet location : String) (content : Option String) :
    Except WorkbookError (Outcome Unit) := do
  let (index, p) ← book.locateCell sheet location
  let (book, announcements) := book.writeAt index p content
  return ⟨(), book, announcements⟩

/-! ## Adding and deleting sheets -/

/-- The workbook with one more sheet, whose place and name are the result (`new_sheet`, once the
    name is known). Formulas that refer to its name find it from now on. -/
def append (book : Workbook) (name : String) : Outcome (Nat × String) :=
  let index := book.size
  let book := { book with
    sheets := book.sheets ++ [Sheet.named name]
    registry := book.registry.insert (upper name) index }
  let (book, announcements) := book.settle .none []
  ⟨(index, name), book, announcements⟩

/-- The name is taken by a sheet, in any case. -/
def isTaken (book : Workbook) (name : String) : Bool :=
  (book.position? name).isSome

/-- The name with this stem and the least number from 1 on that no sheet has (the loop of
    `generate_sheet_name` and that of `copy_sheet`). -/
def freeName (book : Workbook) (stem : String) : String :=
  numbered stem (leastFree book.registry.size book.isTaken stem)

/-- Adds a sheet at the end (`new_sheet`). Without a name it is called `Sheet1`, or the next free
    number. -/
def addSheet (book : Workbook) (name : Option String) :
    Except WorkbookError (Outcome (Nat × String)) :=
  match name with
  | none => .ok (book.append (book.freeName "Sheet"))
  | some name =>
    match book.checkName name with
    | .error e => .error e
    | .ok () => .ok (book.append name)

/-- Deletes a sheet (`del_sheet`). References to it are errors until a sheet has its name again. -/
def deleteSheet (book : Workbook) (name : String) : Except WorkbookError (Outcome Unit) := do
  let index ← book.locate name
  let gone := (book.sheets[index]?).elim name Sheet.name
  let book := { book with
    graph := book.graph.disconnectWhere (·.isOn gone)
    sheets := book.sheets.eraseIdx index }
  let (book, announcements) := book.reindex.settle .none []
  return ⟨(), book, announcements⟩

/-! ## Renaming a sheet -/

/-- Moves every node of the sheet `old` to the same position of the sheet `new`, both in upper case
    (the loop over `moved` in `rename_sheet`). -/
def moveNodes (graph : DependencyGraph) (old new : String) : DependencyGraph :=
  (graph.keys.filter (·.sheet == old)).foldl
    (fun graph key => graph.rename key { key with sheet := new }) graph

/-- The cells whose formulas mention a sheet (`rewrites` in `rename_sheet`): the place of their
    sheet, their position and the text of the formula with the sheet renamed. -/
def renamedFormulas (book : Workbook) (old new : String) : List (Nat × Position × String) :=
  book.sheets.zipIdx.flatMap fun (sheet, index) =>
    sheet.cells.toList.filterMap fun (p, cell) =>
      match cell.expr? with
      | none => none
      | some expr =>
        if expr.mentions old then some (index, p, (expr.renameSheet old new).toText) else none

/-- Replaces the text of one formula (the loop over `rewrites` in `rename_sheet`). -/
def replaceFormula (state : Workbook × Changes) (formula : Nat × Position × String) :
    Workbook × Changes :=
  let (book, changes) := state
  let (index, p, text) := formula
  match book.sheets[index]? with
  | none => (book, changes)
  | some sheet =>
    (book.modifySheet index (·.write p (some text)),
      changes.touch (CellKey.on sheet.name p) (sheet.value? p))

/-- Renames a sheet in place, and in every formula that mentions it (`rename_sheet`). Formulas that
    referred to the new name before find the sheet from now on. -/
def renameSheet (book : Workbook) (old new : String) : Except WorkbookError (Outcome Unit) := do
  let index ← book.locate old
  let _ ← book.checkName new
  let name := (book.sheets[index]?).elim old Sheet.name
  let book := book.modifySheet index ({ · with name := new })
  let book := { book with
    registry := (book.registry.erase (upper name)).insert (upper new) index
    graph := moveNodes book.graph (upper name) (upper new) }
  let (book, changes) := (book.renamedFormulas name new).foldl replaceFormula (book, .none)
  let moved := book.graph.keys.filter fun key => key.sheet == upper new && key.position.inGrid
  let book := moved.foldl (fun book key => (book.ensureAt key).link key) book
  let (book, announcements) := book.settle changes moved
  return ⟨(), book, announcements⟩

/-! ## Moving and copying sheets -/

/-- Moves a sheet to a place in the list (`move_sheet`). No value changes. -/
def moveSheet (book : Workbook) (name : String) (target : Nat) :
    Except WorkbookError (Outcome Unit) := do
  let index ← book.locate name
  if book.size ≤ target then .error (.indexOutOfRange target book.size)
  else
    let sheets := (book.sheets.eraseIdx index).insertIdx target
      ((book.sheets[index]?).getD (.named name))
    return ⟨(), { book with sheets }.reindex, []⟩

/-- Writes one content of a copied sheet (the loop of `copy_sheet`). -/
def paste (index : Nat) (state : Workbook × List Announcement) (entry : Position × String) :
    Workbook × List Announcement :=
  let (book, announcements) := state.1.writeAt index entry.1 (some entry.2)
  (book, state.2 ++ announcements)

/-- Copies a sheet to the end of the list under its name with an underscore and the least free
    number (`copy_sheet`). The contents are written one after the other in row-major order, each as
    an edit of its own. -/
def copySheet (book : Workbook) (name : String) :
    Except WorkbookError (Outcome (Nat × String)) := do
  let index ← book.locate name
  let source := (book.sheets[index]?).getD (.named name)
  let added ← book.addSheet (some (book.freeName (source.name ++ "_")))
  let (book, announcements) :=
    source.contents.foldl (paste added.result.1) (added.book, added.announcements)
  return ⟨added.result, book, announcements⟩

end Workbook

end Spreadsheet
