import Spreadsheet.CellKey
import Spreadsheet.CellValue
import Std.Data.HashMap

/-!
# Changes of values

* `Changes` remembers the value that each cell had when an edit first touched it. `Changes.net` are
  the cells whose value is another one at the end, in the order in which they were touched.
* `ChangedCell` is such a cell as listeners see it.
* `ChangeLog` collects the batches that a listener was sent.
-/

namespace Spreadsheet

/-! ## During an edit -/

/-- The cells that an edit has touched, and the value of each before (`ChangeTracker`). -/
structure Changes where
  touched : Array CellKey
  before : Std.HashMap CellKey (Option CellValue)

namespace Changes

/-- Nothing has been touched (`new`). -/
def none : Changes :=
  ⟨#[], ∅⟩

/-- Remembers the value of a cell, unless it was touched before (`touch`). -/
def touch (c : Changes) (key : CellKey) (value : Option CellValue) : Changes :=
  if c.before.contains key then c else ⟨c.touched.push key, c.before.insert key value⟩

/-- The value that a touched cell had before. -/
def valueBefore (c : Changes) (key : CellKey) : Option CellValue :=
  c.before[key]?.join

/-- The touched cells whose value `now` is another one than before (`into_changes`). -/
def net (c : Changes) (now : CellKey → Option CellValue) : List CellKey :=
  c.touched.toList.filter fun key => !CellValue.agrees (c.valueBefore key) (now key)

end Changes

/-! ## For listeners -/

/-- A cell whose value has changed: the name of its sheet as the user wrote it, and its address. -/
structure ChangedCell where
  sheet : String
  address : String
deriving DecidableEq, Repr

/-- The batches that a listener was sent, in the order of delivery (`ChangeCollector`). -/
structure ChangeLog where
  batches : List (List ChangedCell)

namespace ChangeLog

/-- No batch was sent. -/
def empty : ChangeLog :=
  ⟨[]⟩

/-- One more batch (`callback`). -/
def record (log : ChangeLog) (batch : List ChangedCell) : ChangeLog :=
  ⟨log.batches ++ [batch]⟩

/-- The number of batches (`len`). -/
def size (log : ChangeLog) : Nat :=
  log.batches.length

/-- All changed cells, batch after batch (`all`). -/
def all (log : ChangeLog) : List ChangedCell :=
  log.batches.flatten

/-- How often a cell occurs (`count_for`). -/
def count (log : ChangeLog) (cell : ChangedCell) : Nat :=
  log.all.count cell

end ChangeLog

end Spreadsheet
