import Spreadsheet.Decimal.Text

/-!
# Positions and their A1 addresses

A position is a row and a column, counted from zero. Its address is the column in letters and then
the row number counted from one: `B3` is row 2, column 1.

* `columnLetters` is bijective base 26: `A` to `Z`, then `AA`.
* `Position.address` writes an address, `Position.ofAddress` reads one, `Position.ofLocation` reads
  one that has to lie inside the grid.
* `AddressError` names each way to fail, with its text.
-/

namespace Spreadsheet

/-- A row and a column, both counted from zero. -/
structure Position where
  row : Nat
  col : Nat
deriving DecidableEq, Hashable, Repr

/-! ## The grid -/

/-- The number of rows of the grid (`MAX_ROWS`). -/
def gridRows : Nat := 9999

/-- The number of columns of the grid: all of one to four letters. -/
def gridCols : Nat := 475254

/-- Row numbers and column numbers of an address are below this bound. -/
def addressBound : Nat := Nat.pow 2 64

namespace Position

/-- The position lies inside the grid (`is_valid_location`). -/
def inGrid (p : Position) : Bool :=
  p.row < gridRows && p.col < gridCols

/-- Row-major order. -/
def compare : Position → Position → Ordering :=
  compareLex (compareOn row) (compareOn col)

end Position

/-! ## Writing addresses -/

/-- The `n`-th letter of the alphabet, counted from zero. -/
def letter (n : Nat) : Char :=
  Char.ofNat ('A'.toNat + n)

/-- The letters of a column (`col_to_letters`). -/
def columnLetters (col : Nat) : List Char :=
  if col < 26 then [letter col] else columnLetters (col / 26 - 1) ++ [letter (col % 26)]
termination_by col
decreasing_by omega

/-- The address of a position (`format_address`). -/
def Position.address (p : Position) : String :=
  String.ofList (columnLetters p.col ++ Digits.print (p.row + 1))

/-! ## Reading addresses -/

/-- The ways in which a text fails to be an address, or an address inside the grid. -/
inductive AddressError where
  | malformed (text : String)
  | columnTooLarge (text : String)
  | rowTooLarge (text : String)
  | rowZero (text : String)
  | outsideGrid (text : String)
deriving DecidableEq, Repr

/-- What a user is told. -/
def AddressError.message : AddressError → String
  | malformed text => "Invalid cell location: " ++ text
  | columnTooLarge text => "Column out of range: " ++ text
  | rowTooLarge text => "Row out of range: " ++ text
  | rowZero text => "Invalid row number: " ++ text
  | outsideGrid text => "Cell location out of range: " ++ text

/-- The character is an ASCII letter. -/
def isLetter (c : Char) : Bool :=
  ('A' ≤ c && c ≤ 'Z') || ('a' ≤ c && c ≤ 'z')

/-- The value of a letter in either case, counted from one. -/
def letterValue (c : Char) : Nat :=
  c.toUpper.toNat - 'A'.toNat + 1

/-- The number of a column, counted from one, if it stays below `addressBound`. -/
def readColumn? (letters : List Char) : Option Nat :=
  letters.foldlM
    (fun n c => let n := n * 26 + letterValue c; if n < addressBound then some n else none) 0

/-- The characters of an address: letters, then digits, at least one of each. -/
def isAddressShape (letters digits : List Char) : Bool :=
  !letters.isEmpty && !digits.isEmpty && digits.all Decimal.isDigit

namespace Position

/-- The position of an address, which may lie outside the grid (`parse_address`). The shape is
    judged first, then the column, then the row. -/
def ofAddress (text : String) : Except AddressError Position :=
  let letters := text.toList.takeWhile isLetter
  let digits := text.toList.dropWhile isLetter
  if !isAddressShape letters digits then .error (.malformed text)
  else
    match readColumn? letters with
    | none => .error (.columnTooLarge text)
    | some col =>
      let row := Digits.read digits
      if addressBound ≤ row then .error (.rowTooLarge text)
      else if row = 0 then .error (.rowZero text)
      else .ok ⟨row - 1, col - 1⟩

/-- The position of an address inside the grid (`parse_location`); blanks at the ends are
    ignored. -/
def ofLocation (text : String) : Except AddressError Position :=
  match ofAddress (trim text) with
  | .error e => .error e
  | .ok p => if p.inGrid then .ok p else .error (.outsideGrid text)

end Position

end Spreadsheet
