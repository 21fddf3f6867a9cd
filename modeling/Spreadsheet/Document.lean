import Spreadsheet.Json.Parser
import Spreadsheet.Json.Printer
import Spreadsheet.Workbook.Edit

/-!
# Saved workbooks

A workbook is saved as a JSON document: an object with a list of sheets, each an object with a name
and an object from addresses to contents. Nothing else is saved, because everything else follows.

* `Workbook.document` and `Workbook.save` write it.
* `Workbook.ofDocument` and `Workbook.load` read it: the shape of the whole document first, then all
  sheets are added, then all contents written, each as an edit of a user.
* `LoadError` names the ways in which that fails.
-/

namespace Spreadsheet

/-! ## Errors -/

/-- The ways in which loading a workbook fails (`PersistError`). -/
inductive LoadError where
  | malformed
  | topNotObject
  | sheetsMissing
  | sheetsNotList
  | sheetNotObject (index : Nat)
  | nameMissing (index : Nat)
  | nameNotString (index : Nat)
  | contentsMissing (sheet : String)
  | contentsNotObject (sheet : String)
  | contentNotString (sheet location : String)
  | edit (e : WorkbookError)
deriving DecidableEq, Repr

namespace LoadError

/-- What a user is told of a missing key. -/
def missing (what : String) : String :=
  "missing required key: " ++ what

/-- What a user is told of a value of the wrong type. -/
def mismatch (what : String) : String :=
  "unexpected type: " ++ what

/-- What a user is told. -/
def message : LoadError → String
  | malformed => "malformed JSON"
  | topNotObject => mismatch "top level must be an object"
  | sheetsMissing => missing "sheets"
  | sheetsNotList => mismatch "\"sheets\" must be a list"
  | sheetNotObject index => mismatch ("sheet " ++ Digits.text index ++ " must be an object")
  | nameMissing index => missing ("sheet " ++ Digits.text index ++ ": \"name\"")
  | nameNotString index => mismatch ("sheet " ++ Digits.text index ++ ": name must be a string")
  | contentsMissing sheet => missing ("sheet '" ++ sheet ++ "': \"cell-contents\"")
  | contentsNotObject sheet =>
    mismatch ("sheet '" ++ sheet ++ "': \"cell-contents\" must be an object")
  | contentNotString sheet location =>
    mismatch ("sheet '" ++ sheet ++ "': contents of " ++ location ++ " must be a string")
  | edit e => e.message

end LoadError

/-! ## Saving -/

/-- A sheet as saved (`SheetDoc`). -/
def Sheet.document (s : Sheet) : Json :=
  .object [
    ("name", .string s.name),
    ("cell-contents",
      .object (s.contents.map fun (p, content) => (p.address, .string content)))]

namespace Workbook

/-- A workbook as saved (`WorkbookDoc`). -/
def document (book : Workbook) : Json :=
  .object [("sheets", .array (book.sheets.map Sheet.document))]

/-- The text of a saved workbook (`save_workbook`). -/
def save (book : Workbook) : String :=
  book.document.pretty

end Workbook

/-! ## Loading -/

/-- A sheet of a document: its name and its contents, which may have any type yet. -/
structure SavedSheet where
  name : String
  contents : List (String × Json)

/-- The value, or an error if there is none. -/
def orError {α : Type} (e : LoadError) : Option α → Except LoadError α
  | some a => .ok a
  | none => .error e

/-- The sheet in a value that is item `index` of the list of sheets (the first loop of
    `load_workbook`). -/
def SavedSheet.ofJson (index : Nat) (v : Json) : Except LoadError SavedSheet := do
  let members ← orError (.sheetNotObject index) v.object?
  let name ← orError (.nameMissing index) (Json.member? "name" members)
  let name ← orError (.nameNotString index) name.string?
  let contents ← orError (.contentsMissing name) (Json.member? "cell-contents" members)
  let contents ← orError (.contentsNotObject name) contents.object?
  return ⟨name, contents⟩

/-- The sheets of a document, in order (`load_workbook`, up to the first edit). -/
def savedSheets (v : Json) : Except LoadError (List SavedSheet) := do
  let members ← orError .topNotObject v.object?
  let sheets ← orError .sheetsMissing (Json.member? "sheets" members)
  let sheets ← orError .sheetsNotList sheets.array?
  sheets.zipIdx.mapM fun (v, index) => SavedSheet.ofJson index v

namespace Workbook

/-- The workbook with an empty sheet for a saved one (the call of `new_sheet` in
    `load_workbook`). -/
def addSaved (book : Workbook) (sheet : SavedSheet) : Except LoadError Workbook :=
  match book.addSheet (some sheet.name) with
  | .error e => .error (.edit e)
  | .ok outcome => .ok outcome.book

/-- The workbook with one saved content written to its cell (the call of `set_cell_contents` in
    `load_workbook`). -/
def writeSaved (name : String) (book : Workbook) (entry : String × Json) :
    Except LoadError Workbook := do
  let content ← orError (.contentNotString name entry.1) entry.2.string?
  match book.write name entry.1 (some content) with
  | .error e => .error (.edit e)
  | .ok outcome => .ok outcome.book

/-- The workbook with all contents of a saved sheet written to its cells. -/
def writeSheet (book : Workbook) (sheet : SavedSheet) : Except LoadError Workbook :=
  sheet.contents.foldlM (writeSaved sheet.name) book

/-- The workbook of a document (`load_workbook`, once the text has been read). -/
def ofDocument (v : Json) : Except LoadError Workbook := do
  let sheets ← savedSheets v
  let book ← sheets.foldlM addSaved .empty
  sheets.foldlM writeSheet book

/-- The workbook of a saved text (`load_workbook`). -/
def load (text : String) : Except LoadError Workbook :=
  match Json.parse? text with
  | none => .error .malformed
  | some v => ofDocument v

end Workbook

end Spreadsheet
