import Spreadsheet.Decimal.Digits
import Spreadsheet.Position
import Spreadsheet.Text.Blank

/-!
# Names of sheets

* `nameFault?` is the rule that a name breaks, if it breaks one; the rules are tried in order.
* `leastFree` finds the least number that gives a name not in use.
-/

namespace Spreadsheet

/-- The rules that a sheet name may break. -/
inductive NameFault where
  | empty
  | blankEnd
  | quote
  | character
deriving DecidableEq, Repr

/-- What a user is told. -/
def NameFault.reason : NameFault → String
  | empty => "name is empty"
  | blankEnd => "name has leading or trailing whitespace"
  | quote => "name contains a quote character"
  | character => "name contains an invalid character"

/-- The punctuation that a name may have (`SHEET_NAME_PUNCTUATION`). -/
def namePunctuation : List Char :=
  ".?!,:;@#$%^&*()-_".toList

/-- The characters that a name may have: ASCII letters and digits, spaces and some punctuation. -/
def isSheetNameChar (c : Char) : Bool :=
  isLetter c || Decimal.isDigit c || c == ' ' || namePunctuation.contains c

/-- The first rule that a name breaks (`validate_sheet_name`). -/
def nameFault? (name : String) : Option NameFault :=
  if name.isEmpty then some .empty
  else if trim name != name then some .blankEnd
  else if name.toList.any fun c => c == '\'' || c == '"' then some .quote
  else if !name.toList.all isSheetNameChar then some .character
  else none

/-- A name with a number after it. -/
def numbered (stem : String) (n : Nat) : String :=
  stem ++ Digits.text n

/-- The least number from 1 on whose name is not taken (`generate_sheet_name`, `copy_sheet`). Of
    `names` and one more different names one is free if at most `names` are taken. -/
def leastFree (names : Nat) (taken : String → Bool) (stem : String) : Nat :=
  ((List.range' 1 (names + 1)).find? fun n => !taken (numbered stem n)).getD (names + 1)

end Spreadsheet
