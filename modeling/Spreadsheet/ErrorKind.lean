/-!
# Errors that a cell can hold

An error is a value like any other: it has a spelling, which users may type, and a detail text.

* `ErrorKind` is the closed set of errors, `ErrorKind.spelling` the canonical text of each.
* `ofCanonical?`, `ofLiteral?` and `ofStart?` recognise a spelling exactly, in any case, and at the
  start of a longer text.
* `CellError` adds the detail text.
-/

namespace Spreadsheet

/-- The kinds of error value. -/
inductive ErrorKind where
  | parse
  | circular
  | reference
  | name
  | value
  | division
deriving DecidableEq, Repr

namespace ErrorKind

/-- Every kind, in the order in which spellings are tried. -/
def all : List ErrorKind :=
  [parse, circular, reference, name, value, division]

/-- The canonical spelling (`as_str`). -/
def spelling : ErrorKind → String
  | parse => "#ERROR!"
  | circular => "#CIRCREF!"
  | reference => "#REF!"
  | name => "#NAME?"
  | value => "#VALUE!"
  | division => "#DIV/0!"

/-- The detail text of an error that a computation produced (`detail`). -/
def detail : ErrorKind → String
  | parse => "Parsing error"
  | circular => "Circular reference detected"
  | reference => "Invalid reference"
  | name => "Invalid function name"
  | value => "Type mismatch"
  | division => "Divide by zero"

/-- The kind with this canonical spelling (`from_canonical`). -/
def ofCanonical? (s : String) : Option ErrorKind :=
  all.find? (·.spelling == s)

/-- The characters are those of `spelling`, in upper or lower case; only ASCII letters have a case
    here. -/
def matchesAnyCase (spelling cs : List Char) : Bool :=
  spelling.map Char.toUpper == cs.map Char.toUpper

/-- The kind that a text spells in upper or lower case (`from_literal`). -/
def ofLiteral? (s : String) : Option ErrorKind :=
  all.find? fun kind => matchesAnyCase kind.spelling.toList s.toList

/-- The kind whose canonical spelling the text starts with (`from_prefix`). -/
def ofStart? (s : String) : Option ErrorKind :=
  all.find? fun kind => kind.spelling.toList.isPrefixOf s.toList

/-- The kind whose spelling, in upper or lower case, comes first, and the characters after it. -/
def readLiteral? (cs : List Char) : Option (ErrorKind × List Char) :=
  (all.find? fun kind =>
    let spelling := kind.spelling.toList
    matchesAnyCase spelling (cs.take spelling.length)).map
    fun kind => (kind, cs.drop kind.spelling.toList.length)

end ErrorKind

/-- An error value: its kind and a detail text. -/
structure CellError where
  kind : ErrorKind
  detail : String
deriving DecidableEq, Repr

/-- The error that a computation produces (`standard`). -/
def CellError.standard (kind : ErrorKind) : CellError :=
  ⟨kind, kind.detail⟩

end Spreadsheet
