import Spreadsheet.Workbook.Edit

/-!
# Calls in place

A user holds one workbook and changes it by calls. A call makes its changes one after the other, and
one that fails in the middle leaves behind what it has changed until then. It is for each call to
make all of its checks before its first change.

* `Session` is a workbook in use, with all that its listeners were told.
* `Call` is a call on it; `ask`, `change`, `rewrite` and `settle` are the steps of calls.
* `Call.addSheet` and the others are the calls, step by step.
-/

namespace Spreadsheet

/-- A workbook in use, and all that its listeners were told, in order. -/
structure Session where
  book : Workbook
  told : List Announcement

/-- A call on a session. A call that fails has changed the session up to there. -/
abbrev Call := EStateM WorkbookError Session

namespace Call

variable {α : Type}

/-! ## Steps -/

/-- A question to the workbook, whose failure is that of the call. -/
def ask (f : Workbook → Except WorkbookError α) : Call α := do
  match f (← get).book with
  | .ok a => return a
  | .error e => throw e

/-- A question that is always answered. -/
def look (f : Workbook → α) : Call α :=
  return f (← get).book

/-- A change of the workbook. -/
def change (f : Workbook → Workbook) : Call Unit :=
  modify fun s => { s with book := f s.book }

/-- The text of one formula is replaced, and its value before is remembered. -/
def rewrite (changes : Changes) (formula : Nat × Position × String) : Call Changes :=
  modifyGet fun s =>
    let (book, changes) := Workbook.replaceFormula (s.book, changes) formula
    (changes, { s with book })

/-- Formulas are evaluated and listeners are told of the changes. -/
def settle (changes : Changes) (written : List CellKey) : Call Unit :=
  modify fun s =>
    let (book, announcements) := s.book.settle changes written
    ⟨book, s.told ++ announcements⟩

/-! ## Cells -/

/-- Writes a content to the cell at `p` of the sheet at `index` (`set_cell_at`). -/
def writeAt (index : Nat) (p : Position) (content : Option String) : Call Unit := do
  match ← look (·.sheets[index]?) with
  | none => return
  | some sheet =>
    let key := CellKey.on sheet.name p
    change (·.modifySheet index (·.write p content))
    change fun book => { book with graph := book.graph.add key }
    change (·.link key)
    settle (Changes.none.touch key (sheet.value? p)) [key]

/-- Writes a content to a cell (`set_cell_contents`); no content clears it. -/
def write (sheet location : String) (content : Option String) : Call Unit := do
  let (index, p) ← ask (·.locateCell sheet location)
  writeAt index p content

/-! ## Sheets -/

/-- Adds a sheet at the end (`new_sheet`). Without a name it is called `Sheet1`, or the next free
    number. -/
def addSheet (name : Option String) : Call (Nat × String) := do
  let name ← match name with
    | some name => do
      ask (·.checkName name)
      pure name
    | none => look (·.freeName "Sheet")
  let index ← look Workbook.size
  change fun book => { book with sheets := book.sheets ++ [Sheet.named name] }
  change fun book => { book with registry := book.registry.insert (upper name) index }
  settle .none []
  return (index, name)

/-- Deletes a sheet (`del_sheet`). -/
def deleteSheet (name : String) : Call Unit := do
  let index ← ask (·.locate name)
  let gone ← look fun book => (book.sheets[index]?).elim name Sheet.name
  change fun book => { book with graph := book.graph.disconnectWhere (·.isOn gone) }
  change fun book => { book with sheets := book.sheets.eraseIdx index }
  change Workbook.reindex
  settle .none []

/-- Renames a sheet in place, and in every formula that mentions it (`rename_sheet`). -/
def renameSheet (old new : String) : Call Unit := do
  let index ← ask (·.locate old)
  ask (·.checkName new)
  let name ← look fun book => (book.sheets[index]?).elim old Sheet.name
  change (·.modifySheet index ({ · with name := new }))
  change fun book => { book with registry := book.registry.erase (upper name) }
  change fun book => { book with registry := book.registry.insert (upper new) index }
  change fun book => { book with graph := Workbook.moveNodes book.graph (upper name) (upper new) }
  let formulas ← look (·.renamedFormulas name new)
  let changes ← formulas.foldlM rewrite .none
  let moved ← look fun book =>
    book.graph.keys.filter fun key => key.sheet == upper new && key.position.inGrid
  moved.forM fun key => do
    change (·.ensureAt key)
    change (·.link key)
  settle changes moved

/-- Moves a sheet to a place in the list (`move_sheet`). -/
def moveSheet (name : String) (target : Nat) : Call Unit := do
  let index ← ask (·.locate name)
  ask fun book =>
    if book.size ≤ target then .error (.indexOutOfRange target book.size) else .ok ()
  let sheet ← look fun book => (book.sheets[index]?).getD (.named name)
  change fun book => { book with sheets := book.sheets.eraseIdx index }
  change fun book => { book with sheets := book.sheets.insertIdx target sheet }
  change Workbook.reindex

/-- Copies a sheet to the end of the list (`copy_sheet`): adds one, and writes the contents to it
    one after the other. -/
def copySheet (name : String) : Call (Nat × String) := do
  let index ← ask (·.locate name)
  let source ← look fun book => (book.sheets[index]?).getD (.named name)
  let copy ← look (·.freeName (source.name ++ "_"))
  let added ← addSheet (some copy)
  source.contents.forM fun entry => writeAt added.1 entry.1 (some entry.2)
  return added

/-- Registers a listener (`notify_cells_changed`). -/
def listen (listener : String) : Call Unit :=
  change (·.listen listener)

end Call

end Spreadsheet
