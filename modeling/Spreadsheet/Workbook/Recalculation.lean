import Spreadsheet.Formula.Eval
import Spreadsheet.Workbook.Basic

/-!
# Recalculation

After an edit every formula is evaluated anew, in evaluation order, and the listeners are told what
has changed.

* `Workbook.link` puts the references of one cell into the graph.
* `Workbook.formulaValue` is the value of one formula; a formula on a cycle gets the circular error
  instead.
* `Workbook.recalculate` evaluates all formulas, `Workbook.settle` completes an edit.
-/

namespace Spreadsheet

open Formula (Expr Lookup Scalar Target)

/-- The cell that a target of a formula on `home` means (`resolve_reference`); none outside the
    grid. -/
def resolve (home : String) (target : Target) : Option CellKey :=
  let (sheet, address) := match target with
    | .here address => (home, address)
    | .on sheet address => (sheet, address)
  (Position.ofLocation address).toOption.map (CellKey.on sheet)

namespace Workbook

/-! ## References -/

/-- The workbook with a cell stored under this key, if its sheet exists (the call of `ensure` in
    `link_cell`). -/
def ensureAt (book : Workbook) (key : CellKey) : Workbook :=
  match book.registry[key.sheet]? with
  | some index => book.modifySheet index (·.ensure key.position)
  | none => book

/-- The workbook with one more edge into `reader` (the loop of `link_cell`). Its source gets a place
    on its sheet. -/
def linkFrom (reader : CellKey) (book : Workbook) (source : CellKey) : Workbook :=
  let book := book.ensureAt source
  { book with graph := book.graph.connect source reader }

/-- The workbook in which the edges into `key` are those of the formula that is stored there now
    (`link_cell`). -/
def link (book : Workbook) (key : CellKey) : Workbook :=
  let targets := ((book.cellAt key).elim [] Cell.targets).filterMap (resolve key.sheet)
  let book := { book with graph := book.graph.disconnect key }
  targets.foldl (linkFrom key) book

/-! ## Values of formulas -/

/-- What a formula on the sheet at `index` sees (`WorkbookLookup`). -/
def lookup (book : Workbook) (index : Nat) : Lookup where
  here p := Scalar.ofCell ((book.sheets[index]?).bind (·.value? p))
  on name p :=
    match book.sheet? name with
    | some sheet => Scalar.ofCell (sheet.value? p)
    | none => .error .reference

/-- The error of a formula that depends on itself (`circular_reference`). -/
def circular : CellValue :=
  .standardError .circular

/-- The value of a formula that is nothing but one reference, where it can be told at once
    (`evaluate_cell`, before the formula is opened): such a formula refers to itself, or to a cell
    of an existing sheet without content. -/
def aliasValue? (book : Workbook) (key : CellKey) : Expr → Option CellValue
  | .ref r =>
    match resolve key.sheet r.target with
    | none => none
    | some source =>
      if source = key then some circular
      else
        match book.sheetOf? source with
        | none => none
        | some sheet => if sheet.hasContent source.position then none else some (.number 0)
  | _ => none

/-- The value of a formula at `key`, on the sheet at `index`, if it lies on no cycle
    (`evaluate_cell`). -/
def formulaValue (book : Workbook) (index : Nat) (key : CellKey) (expr : Expr) : CellValue :=
  (book.aliasValue? key expr).getD (expr.value (book.lookup index))

end Workbook

/-! ## Passes -/

/-- What a recalculation went through (`RecalcReport`). -/
structure PassSummary where
  /-- The nodes of the graph. -/
  nodes : Nat := 0
  /-- The formulas that were given a value. -/
  cells : Nat := 0
  /-- The formulas among them on cycles. -/
  cycleCells : Nat := 0
  /-- The nodes without a sheet or outside the grid. -/
  skipped : Nat := 0
deriving DecidableEq, Repr

namespace PassSummary

/-- A formula on a cycle was found (`had_cycles`). -/
def hasCycles (s : PassSummary) : Bool :=
  0 < s.cycleCells

/-- A text with blanks before it up to a width. -/
def padLeft (width : Nat) (cs : List Char) : List Char :=
  List.replicate (width - cs.length) ' ' ++ cs

/-- One line for a log, with the time taken (`log_line`). -/
def logLine (s : PassSummary) (millis : Nat) : String :=
  "[recalc/full] " ++ String.ofList (padLeft 4 (Digits.print millis)) ++ "ms  " ++
    Digits.text s.nodes ++ " nodes  " ++ Digits.text s.cells ++ " cells  cycles=" ++
    Digits.text s.cycleCells ++ "  skipped=" ++ Digits.text s.skipped

end PassSummary

/-- A workbook in the middle of an edit. -/
structure Pass where
  book : Workbook
  changes : Changes
  summary : PassSummary := {}

namespace Pass

/-- The cell at `key`, on the sheet at `index`, gets a new value after its value before has been
    noted (`touch`, then `set_value`). Whoever calls this has seen that it holds a formula. -/
def assign (p : Pass) (index : Nat) (key : CellKey) (value : CellValue) : Pass :=
  { p with
    changes := p.changes.touch key (p.book.valueAt key)
    book := p.book.modifySheet index (·.evaluated key.position value) }

/-- Marks a formula as circular (the loop of `check_cycle`). -/
def mark (p : Pass) (key : CellKey) : Pass :=
  match p.book.registry[key.sheet]?, (p.book.cellAt key).bind Cell.expr? with
  | some index, some _ => p.assign index key Workbook.circular
  | _, _ => p

/-- Marks all formulas of the cycles through `key`, if there are any (`check_cycle`). -/
def markCycle (c : Condensation) (p : Pass) (key : CellKey) : Pass :=
  if p.book.graph.inCycle c key then (p.book.graph.componentOf c key).foldl mark p else p

/-- Evaluates the formula at one node (the loop of `recompute`). A node without a sheet or outside
    the grid is skipped; another node without a cell gets a blank one. -/
def evaluateNode (c : Condensation) (p : Pass) (key : CellKey) : Pass :=
  let summary := { p.summary with nodes := p.summary.nodes + 1 }
  match p.book.registry[key.sheet]? with
  | some index =>
    if key.position.inGrid then
      let book := p.book.modifySheet index (·.ensure key.position)
      match (book.cellAt key).bind Cell.expr? with
      | none => { p with book, summary }
      | some expr =>
        let cyclic := book.graph.inCycle c key
        let value := if cyclic then Workbook.circular else book.formulaValue index key expr
        let summary := { summary with
          cells := summary.cells + 1
          cycleCells := summary.cycleCells + if cyclic then 1 else 0 }
        assign { p with book, summary } index key value
    else
      { p with summary := { summary with skipped := summary.skipped + 1 } }
  | none => { p with summary := { summary with skipped := summary.skipped + 1 } }

/-- Evaluates all formulas in evaluation order (`recompute`). -/
def recalculate (c : Condensation) (p : Pass) : Pass :=
  (p.book.graph.evaluationOrder c).foldl (evaluateNode c) p

end Pass

namespace Workbook

/-- A changed cell as listeners see it; none if its sheet is gone. -/
def changedCell? (book : Workbook) (key : CellKey) : Option ChangedCell :=
  (book.sheetOf? key).map fun sheet => ⟨sheet.name, key.position.address⟩

/-- What listeners are told after an edit (`notify`): nothing if no value has changed. -/
def announce (book : Workbook) (changes : Changes) : List Announcement :=
  let batch := (changes.net book.valueAt).filterMap book.changedCell?
  if batch.isEmpty then [] else [⟨batch, book⟩]

/-- Completes an edit that wrote to the cells `written` (`check_cycle`, `recompute`, `notify`):
    cycles through them are marked, all formulas evaluated and the changes announced. -/
def settle (book : Workbook) (changes : Changes) (written : List CellKey) :
    Workbook × List Announcement :=
  let c := book.graph.condensation
  let pass := (written.foldl (Pass.markCycle c) ⟨book, changes, {}⟩).recalculate c
  (pass.book, pass.book.announce pass.changes)

end Workbook

end Spreadsheet
