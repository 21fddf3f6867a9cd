import Spreadsheet.Cell
import Spreadsheet.CellKey
import Spreadsheet.CellValue
import Spreadsheet.Decimal.Basic
import Spreadsheet.Decimal.Digits
import Spreadsheet.Decimal.Division
import Spreadsheet.Decimal.Text
import Spreadsheet.Document
import Spreadsheet.ErrorKind
import Spreadsheet.Formula.Eval
import Spreadsheet.Formula.Expr
import Spreadsheet.Formula.Parser
import Spreadsheet.Formula.Printer
import Spreadsheet.Formula.Rename
import Spreadsheet.Formula.Token
import Spreadsheet.Graph.Basic
import Spreadsheet.Graph.Cached
import Spreadsheet.Graph.Components
import Spreadsheet.Graph.Order
import Spreadsheet.Json.Basic
import Spreadsheet.Json.Number
import Spreadsheet.Json.Parser
import Spreadsheet.Json.Printer
import Spreadsheet.Json.Token
import Spreadsheet.Position
import Spreadsheet.Sheet
import Spreadsheet.Text.Blank
import Spreadsheet.Text.Reader
import Spreadsheet.Text.UpperCase
import Spreadsheet.Workbook.Basic
import Spreadsheet.Workbook.Changes
import Spreadsheet.Workbook.Edit
import Spreadsheet.Workbook.Names
import Spreadsheet.Workbook.Recalculation
import Spreadsheet.Workbook.Session
import Spreadsheet.Proofs.Address
import Spreadsheet.Proofs.Cell
import Spreadsheet.Proofs.Decimal.Digits
import Spreadsheet.Proofs.Decimal.Division
import Spreadsheet.Proofs.Decimal.Exact
import Spreadsheet.Proofs.Decimal.Longhand
import Spreadsheet.Proofs.Decimal.Magnitude
import Spreadsheet.Proofs.Decimal.Normal
import Spreadsheet.Proofs.Decimal.PlainText
import Spreadsheet.Proofs.Decimal.Quotient
import Spreadsheet.Proofs.Decimal.Reading
import Spreadsheet.Proofs.Decimal.Rounding
import Spreadsheet.Proofs.Document
import Spreadsheet.Proofs.Formula.Calls
import Spreadsheet.Proofs.Formula.Coercion
import Spreadsheet.Proofs.Formula.Descent
import Spreadsheet.Proofs.Formula.Division
import Spreadsheet.Proofs.Formula.Errors
import Spreadsheet.Proofs.Formula.Grammar
import Spreadsheet.Proofs.Formula.Limits
import Spreadsheet.Proofs.Formula.Lookahead
import Spreadsheet.Proofs.Formula.Outcome
import Spreadsheet.Proofs.Formula.Parser
import Spreadsheet.Proofs.Formula.Reading
import Spreadsheet.Proofs.Formula.Rename
import Spreadsheet.Proofs.Formula.Spacing
import Spreadsheet.Proofs.Formula.Substitution
import Spreadsheet.Proofs.Formula.Tokens
import Spreadsheet.Proofs.Graph.Arena
import Spreadsheet.Proofs.Graph.Bounds
import Spreadsheet.Proofs.Graph.Cached
import Spreadsheet.Proofs.Graph.Components
import Spreadsheet.Proofs.Graph.Cycles
import Spreadsheet.Proofs.Graph.Edges
import Spreadsheet.Proofs.Graph.Evaluation
import Spreadsheet.Proofs.Graph.Exactness
import Spreadsheet.Proofs.Graph.Listing
import Spreadsheet.Proofs.Graph.Order
import Spreadsheet.Proofs.Graph.Recursive
import Spreadsheet.Proofs.Graph.Repeated
import Spreadsheet.Proofs.Graph.Search
import Spreadsheet.Proofs.Graph.Steps
import Spreadsheet.Proofs.Json.RoundTrip
import Spreadsheet.Proofs.Loading
import Spreadsheet.Proofs.Occupancy
import Spreadsheet.Proofs.Position
import Spreadsheet.Proofs.Sheet
import Spreadsheet.Proofs.Text.Blank
import Spreadsheet.Proofs.Text.UpperCase
import Spreadsheet.Proofs.Workbook.BatchOrder
import Spreadsheet.Proofs.Workbook.Changes
import Spreadsheet.Proofs.Workbook.Content
import Spreadsheet.Proofs.Workbook.Copy
import Spreadsheet.Proofs.Workbook.Edit
import Spreadsheet.Proofs.Workbook.Entries
import Spreadsheet.Proofs.Workbook.Extent
import Spreadsheet.Proofs.Workbook.Failure
import Spreadsheet.Proofs.Workbook.Formulas
import Spreadsheet.Proofs.Workbook.History
import Spreadsheet.Proofs.Workbook.Links
import Spreadsheet.Proofs.Workbook.Listeners
import Spreadsheet.Proofs.Workbook.Locality
import Spreadsheet.Proofs.Workbook.Mirror
import Spreadsheet.Proofs.Workbook.Naming
import Spreadsheet.Proofs.Workbook.Reachable
import Spreadsheet.Proofs.Workbook.Reads
import Spreadsheet.Proofs.Workbook.Recursion
import Spreadsheet.Proofs.Workbook.References
import Spreadsheet.Proofs.Workbook.Registry
import Spreadsheet.Proofs.Workbook.Rename
import Spreadsheet.Proofs.Workbook.RenameMeaning
import Spreadsheet.Proofs.Workbook.Repetition
import Spreadsheet.Proofs.Workbook.Session
import Spreadsheet.Proofs.Workbook.Settle
import Spreadsheet.Proofs.Workbook.SheetHistory
import Spreadsheet.Proofs.Workbook.Sheets
import Spreadsheet.Proofs.Workbook.Values
import Spreadsheet.Proofs.Workbook.View
