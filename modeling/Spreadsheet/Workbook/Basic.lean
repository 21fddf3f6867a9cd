import Spreadsheet.Graph.Order
import Spreadsheet.Sheet
import Spreadsheet.Workbook.Changes
import Spreadsheet.Workbook.Names

/-!
# Workbooks

A workbook is a list of sheets, a registry from upper-case names to places in that list, the
dependency graph of all cells, and the listeners.

* `WorkbookError` names the ways in which a call fails.
* `position?`, `sheet?` and `valueAt` look things up.
* `content` and `value` answer a user, who names a sheet in any case and a cell by its address.
-/

namespace Spreadsheet

/-! ## Errors -/

/-- The ways in which a call on a workbook fails. -/
inductive WorkbookError where
  | sheetNotFound (name : String)
  | invalidName (name : String) (fault : NameFault)
  | nameTaken (name : String)
  | invalidLocation (text : String)
  | indexOutOfRange (index count : Nat)
deriving DecidableEq, Repr

/-- What a user is told. -/
def WorkbookError.message : WorkbookError → String
  | sheetNotFound name => "sheet '" ++ name ++ "' not found"
  | invalidName name fault => "invalid sheet name '" ++ name ++ "': " ++ fault.reason
  | nameTaken name => "sheet name '" ++ name ++ "' is already in use"
  | invalidLocation text => "invalid cell location '" ++ text ++ "'"
  | indexOutOfRange index count =>
    "sheet index " ++ Digits.text index ++ " out of range for " ++ Digits.text count ++ " sheets"

/-! ## Workbooks -/

/-- The sheets of a user, with everything needed to keep them calculated. -/
structure Workbook where
  sheets : List Sheet
  /-- The place of each sheet in the list, by its name in upper case. -/
  registry : Std.HashMap String Nat
  graph : DependencyGraph
  /-- The name of each listener, once for each registration, in order of registration. -/
  listeners : List String

namespace Workbook

/-- The workbook without sheets and listeners (`new`). -/
def empty : Workbook :=
  ⟨[], ∅, ∅, []⟩

/-! ## Looking up -/

/-- The number of sheets (`num_sheets`). -/
def size (book : Workbook) : Nat :=
  book.sheets.length

/-- The names of the sheets as the user wrote them, in order (`list_sheets`). -/
def names (book : Workbook) : List String :=
  book.sheets.map Sheet.name

/-- The place of the sheet with this name, in any case. -/
def position? (book : Workbook) (name : String) : Option Nat :=
  book.registry[upper name]?

/-- The sheet with this name, in any case (`sheet`). -/
def sheet? (book : Workbook) (name : String) : Option Sheet :=
  (book.position? name).bind (book.sheets[·]?)

/-- The sheet of a key. -/
def sheetOf? (book : Workbook) (key : CellKey) : Option Sheet :=
  book.registry[key.sheet]?.bind (book.sheets[·]?)

/-- The cell with this key. -/
def cellAt (book : Workbook) (key : CellKey) : Option Cell :=
  (book.sheetOf? key).bind (·.cell? key.position)

/-- The value of the cell with this key (`value_at`). -/
def valueAt (book : Workbook) (key : CellKey) : Option CellValue :=
  (book.cellAt key).bind Cell.value?

/-- The workbook with one sheet edited. -/
def modifySheet (book : Workbook) (index : Nat) (f : Sheet → Sheet) : Workbook :=
  { book with sheets := book.sheets.modify index f }

/-- The workbook with the registry made anew from the list of sheets (`reindex`). -/
def reindex (book : Workbook) : Workbook :=
  { book with
    registry := Std.HashMap.ofList (book.sheets.zipIdx.map fun (s, i) => (upper s.name, i)) }

/-! ## Answering a user -/

/-- The place of a sheet, or the error that there is none (`sheet_position`). -/
def locate (book : Workbook) (name : String) : Except WorkbookError Nat :=
  match book.position? name with
  | some index => .ok index
  | none => .error (.sheetNotFound name)

/-- The place of a sheet and the position of an address inside the grid (`sheet_position`,
    `parse_location`). -/
def locateCell (book : Workbook) (sheet location : String) :
    Except WorkbookError (Nat × Position) := do
  let index ← book.locate sheet
  match Position.ofLocation location with
  | .ok p => .ok (index, p)
  | .error _ => .error (.invalidLocation location)

/-- The content of a cell as stored (`get_cell_contents`). -/
def content (book : Workbook) (sheet location : String) :
    Except WorkbookError (Option String) := do
  let (index, p) ← book.locateCell sheet location
  return (book.sheets[index]?).bind (·.content? p)

/-- The value of a cell (`get_cell_value`). -/
def value (book : Workbook) (sheet location : String) :
    Except WorkbookError (Option CellValue) := do
  let (index, p) ← book.locateCell sheet location
  return (book.sheets[index]?).bind (·.value? p)

/-- The extent of a sheet (`get_sheet_extent`). -/
def extent (book : Workbook) (name : String) : Except WorkbookError (Nat × Nat) := do
  let index ← book.locate name
  return (book.sheets[index]?).elim (0, 0) Sheet.extent

/-- Whether a name may be given to a sheet (`validate_sheet_name`): it breaks no rule and no sheet
    has it in any case. -/
def checkName (book : Workbook) (name : String) : Except WorkbookError Unit :=
  match nameFault? name with
  | some fault => .error (.invalidName name fault)
  | none => if (book.position? name).isSome then .error (.nameTaken name) else .ok ()

/-! ## Listeners -/

/-- The workbook with one more listener (`notify_cells_changed`). A listener that registers again is
    told once more. -/
def listen (book : Workbook) (listener : String) : Workbook :=
  { book with listeners := book.listeners ++ [listener] }

end Workbook

/-- The net changes of one edit, and the workbook after it, which listeners may look at. -/
structure Announcement where
  batch : List ChangedCell
  book : Workbook

namespace Announcement

/-- Who is told what, in order: every registration gets the whole batch. -/
def deliveries (a : Announcement) : List (String × List ChangedCell) :=
  a.book.listeners.map fun listener => (listener, a.batch)

/-- Calls every registration in order (the loop of `notify`). A call may fail; what it has done
    until then stays done, and the next registration is called all the same. -/
def deliver {ε σ : Type} (call : String → Announcement → EStateM ε σ Unit) (a : Announcement)
    (state : σ) : σ :=
  a.book.listeners.foldl
    (fun state listener =>
      match call listener a state with
      | .ok _ state => state
      | .error _ state => state)
    state

/-- Delivers announcements one after the other. -/
def deliverAll {ε σ : Type} (call : String → Announcement → EStateM ε σ Unit)
    (announcements : List Announcement) (state : σ) : σ :=
  announcements.foldl (fun state a => a.deliver call state) state

end Announcement

end Spreadsheet
