import Spreadsheet.Cell
import Std.Data.TreeMap

/-!
# Sheets

A sheet maps positions to cells in row-major order. It counts the cells with content in each row and
column, so that its extent is at hand after every write.

* `Occupancy` is such a count.
* `Sheet.write` replaces a content, `Sheet.ensure` makes a place for a cell that a formula refers
  to, `Sheet.evaluated` sets a value.
* `Sheet.extent` is the smallest block from the first cell that covers all content.
-/

namespace Spreadsheet

instance : Std.TransCmp Position.compare :=
  inferInstanceAs (Std.TransCmp (compareLex (compareOn Position.row) (compareOn Position.col)))

instance : Std.LawfulEqCmp Position.compare where
  eq_of_compare {a b} h := by
    obtain ⟨hrow, hcol⟩ := (compareLex_eq_eq).1 h
    cases a
    cases b
    simp_all [compareOn]

/-! ## Occupancy -/

/-- For each row (or column) the number of its cells with content (`MaxTracker`); rows without any
    are left out. The rows that came to have content wait in a heap, which is a list in descending
    order here. A row that has lost its content stays in the heap until it comes to the top, and by
    then it may have been put there once more. -/
structure Occupancy where
  heap : List Nat
  counts : Std.TreeMap Nat Nat

namespace Occupancy

/-- No content at all. -/
def empty : Occupancy :=
  ⟨[], ∅⟩

/-- The number of cells with content in row `i`. -/
def count (o : Occupancy) (i : Nat) : Nat :=
  o.counts.getD i 0

/-- The heap with one more row. -/
def push (i : Nat) : List Nat → List Nat
  | [] => [i]
  | top :: rest => if top ≤ i then i :: top :: rest else top :: push i rest

/-- Takes rows without content off the top of the heap (`prune`). -/
def prune (o : Occupancy) : Occupancy :=
  { o with heap := o.heap.dropWhile fun top => !o.counts.contains top }

/-- One more cell with content in row `i` (`add`). -/
def add (o : Occupancy) (i : Nat) : Occupancy :=
  ⟨if o.count i = 0 then push i o.heap else o.heap, o.counts.insert i (o.count i + 1)⟩

/-- One cell with content less in row `i`, if the row has any (`remove`). -/
def remove (o : Occupancy) (i : Nat) : Occupancy :=
  match o.counts[i]? with
  | none => o.prune
  | some n =>
    prune { o with counts := if n - 1 = 0 then o.counts.erase i else o.counts.insert i (n - 1) }

/-- The last row with content (`max`). -/
def last? (o : Occupancy) : Option Nat :=
  o.heap.head?

end Occupancy

/-! ## Sheets -/

/-- A sheet of a workbook. -/
structure Sheet where
  /-- The name as the user wrote it. -/
  name : String
  cells : Std.TreeMap Position Cell Position.compare
  rows : Occupancy
  cols : Occupancy

namespace Sheet

/-- A sheet without cells (`new`). -/
def named (name : String) : Sheet :=
  ⟨name, ∅, .empty, .empty⟩

/-- The cell stored at a position (`get`). -/
def cell? (s : Sheet) (p : Position) : Option Cell :=
  s.cells[p]?

/-- The value of the cell at a position. -/
def value? (s : Sheet) (p : Position) : Option CellValue :=
  (s.cell? p).bind Cell.value?

/-- The content of the cell at a position. -/
def content? (s : Sheet) (p : Position) : Option String :=
  (s.cell? p).bind Cell.content?

/-- Something was typed at a position. -/
def hasContent (s : Sheet) (p : Position) : Bool :=
  (s.content? p).isSome

/-- The rows and columns from the first to the last one with content (`extent`); zero of both if
    there is no content. -/
def extent (s : Sheet) : Nat × Nat :=
  match s.rows.last?, s.cols.last? with
  | some row, some col => (row + 1, col + 1)
  | _, _ => (0, 0)

/-- The sheet with a cell stored at `p`, a blank one if there was none (`ensure`). -/
def ensure (s : Sheet) (p : Position) : Sheet :=
  { s with cells := s.cells.insertIfNew p .blank }

/-- The sheet with a new content at `p` (`set_content`). -/
def write (s : Sheet) (p : Position) (content : Option String) : Sheet :=
  let cell := Cell.ofContent content
  let s' := { s with cells := s.cells.insert p cell }
  if s.hasContent p && !cell.hasContent then
    { s' with rows := s.rows.remove p.row, cols := s.cols.remove p.col }
  else if !s.hasContent p && cell.hasContent then
    { s' with rows := s.rows.add p.row, cols := s.cols.add p.col }
  else
    s'

/-- The sheet with another value for the cell at `p`, if one is stored there (`get_mut`,
    `set_value`). -/
def evaluated (s : Sheet) (p : Position) (value : CellValue) : Sheet :=
  { s with cells := s.cells.modify p (Cell.evaluated value) }

/-- The contents of the sheet in row-major order (`cells_iter`). -/
def contents (s : Sheet) : List (Position × String) :=
  s.cells.toList.filterMap fun (p, cell) => cell.content?.map fun content => (p, content)

end Sheet

end Spreadsheet
