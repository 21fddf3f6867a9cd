import Spreadsheet.Formula.Expr
import Spreadsheet.Position
import Spreadsheet.Text.Blank

/-!
# Tokens of a formula

* `Token` is one word of a formula; `tokenize` splits a text into tokens and drops the blanks
  between them.
* `ParseError` names every way in which a text fails to be a formula.
* `lexeme_rest_le`: reading one token never lengthens the text, so `tokenize` ends.
-/

namespace Spreadsheet.Formula

/-- One word of a formula. The exclamation mark after a sheet name belongs to the name. -/
inductive Token where
  | number (text : String)
  | text (s : String)
  | error (kind : ErrorKind)
  | cell (address : String)
  | sheet (name : SheetName)
  | operator (op : Operator)
  | opening
  | closing
deriving DecidableEq, Repr

/-- A token as shown to the user (`describe`); a sheet name loses its quotes. -/
def Token.display : Token → String
  | number s => s
  | text s => "\"" ++ s ++ "\""
  | error kind => kind.spelling
  | cell address => address
  | sheet name => name.name ++ "!"
  | operator op => op.char.toString
  | opening => "("
  | closing => ")"

/-! ## Errors -/

/-- The most parentheses that may be open at once (`MAX_NESTING`). -/
def maxOpen : Nat := 256

/-- The most operators and opening parentheses in one formula (`MAX_DEPTH`). -/
def maxOperators : Nat := 1024

/-- The ways in which a text fails to be a formula. -/
inductive ParseError where
  | noEqualsSign
  | empty
  | textNotClosed
  | sheetNotClosed
  | sheetWithoutMark
  | notAnError (rest : String)
  | unknownName (name : String)
  | loneDot
  | unexpectedChar (c : Char)
  | tooManyOpen
  | tooManyOperators
  | unexpectedEnd
  | unexpectedToken (t : Token)
  | closingExpected
  | cellExpected (sheet : String)
  | numberOutOfRange (text : String)
  | concatMixed
deriving DecidableEq, Repr

/-- What a user is told. -/
def ParseError.message : ParseError → String
  | noEqualsSign => "Formula must start with ="
  | empty => "Empty formula"
  | textNotClosed => "Unterminated string literal"
  | sheetNotClosed => "Unterminated sheet name"
  | sheetWithoutMark => "Quoted sheet name must be followed by !"
  | notAnError rest => "Invalid error literal: " ++ rest
  | unknownName name => "Unknown identifier: " ++ name
  | loneDot => "Invalid number: ."
  | unexpectedChar c => "Unexpected character: " ++ c.toString
  | tooManyOpen => "Formula nests more than " ++ Digits.text maxOpen ++ " parentheses"
  | tooManyOperators => "Formula has more than " ++ Digits.text maxOperators ++ " operators"
  | unexpectedEnd => "Unexpected end of formula"
  | unexpectedToken t => "Unexpected token: " ++ t.display
  | closingExpected => "Expected )"
  | cellExpected sheet => "Expected cell reference after " ++ sheet ++ "!"
  | numberOutOfRange text => "Number out of range: " ++ text
  | concatMixed => "Operator & cannot be mixed with arithmetic without parentheses"

/-! ## One token -/

/-- The characters of a name: ASCII letters, digits and the underscore. -/
def isNameChar (c : Char) : Bool :=
  isLetter c || Decimal.isDigit c || c == '_'

/-- A name starts with a letter or an underscore. -/
def isNameStart (c : Char) : Bool :=
  isLetter c || c == '_'

/-- The characters are letters and then digits, as in an address (`is_cell_ref_text`). -/
def isCellName (cs : List Char) : Bool :=
  isAddressShape (cs.takeWhile isLetter) (cs.dropWhile isLetter)

/-- A text between double quotes, after the first quote. It has no escapes. -/
def readText (cs : List Char) : Except ParseError (Token × List Char) :=
  match cs.dropWhile (· != '"') with
  | [] => .error .textNotClosed
  | _ :: rest => .ok (.text (String.ofList (cs.takeWhile (· != '"'))), rest)

/-- A sheet name between single quotes, after the first quote, with its exclamation mark. -/
def readQuotedSheet (cs : List Char) : Except ParseError (Token × List Char) :=
  match cs.dropWhile (· != '\'') with
  | [] => .error .sheetNotClosed
  | _ :: rest =>
    match rest.dropWhile isBlank with
    | '!' :: rest => .ok (.sheet ⟨String.ofList (cs.takeWhile (· != '\'')), true⟩, rest)
    | _ => .error .sheetWithoutMark

/-- The name that starts with `c`: a sheet if an exclamation mark follows, and otherwise an
    address. -/
def readName (c : Char) (cs : List Char) : Except ParseError (Token × List Char) :=
  let name := c :: cs.takeWhile isNameChar
  let rest := cs.dropWhile isNameChar
  match rest.dropWhile isBlank with
  | '!' :: rest => .ok (.sheet ⟨String.ofList name, false⟩, rest)
  | _ =>
    if isCellName name then .ok (.cell (String.ofList name), rest)
    else .error (.unknownName (String.ofList name))

/-- The number that starts with `c`, a digit or a point: digits with at most one point among them,
    which may come first or last. -/
def readNumber (c : Char) (cs : List Char) : Except ParseError (Token × List Char) :=
  let digits := c :: cs.takeWhile Decimal.isDigit
  let rest := cs.dropWhile Decimal.isDigit
  if c == '.' then
    if digits.length = 1 then .error .loneDot else .ok (.number (String.ofList digits), rest)
  else
    match rest with
    | '.' :: rest =>
      .ok (.number (String.ofList (digits ++ '.' :: rest.takeWhile Decimal.isDigit)),
        rest.dropWhile Decimal.isDigit)
    | rest => .ok (.number (String.ofList digits), rest)

/-- An error literal, in upper or lower case; no literal is the start of another. -/
def readError (cs : List Char) : Except ParseError (Token × List Char) :=
  match ErrorKind.readLiteral? cs with
  | some (kind, rest) => .ok (.error kind, rest)
  | none => .error (.notAnError (String.ofList cs))

/-- The token that starts with `c`, which is not blank, and the characters after it (one turn of the
    loop of `tokenize`). -/
def lexeme (c : Char) (cs : List Char) : Except ParseError (Token × List Char) :=
  match Operator.ofChar? c with
  | some op => .ok (.operator op, cs)
  | none =>
    if c == '(' then .ok (.opening, cs)
    else if c == ')' then .ok (.closing, cs)
    else if c == '"' then readText cs
    else if c == '\'' then readQuotedSheet cs
    else if c == '#' then readError (c :: cs)
    else if isNameStart c then readName c cs
    else if Decimal.isDigit c || c == '.' then readNumber c cs
    else .error (.unexpectedChar c)

/-! ## All tokens -/

theorem length_dropWhile_le (p : Char → Bool) (cs : List Char) :
    (cs.dropWhile p).length ≤ cs.length :=
  (List.dropWhile_suffix p).length_le

theorem readText_rest_le {cs rest : List Char} {t : Token} (h : readText cs = .ok (t, rest)) :
    rest.length ≤ cs.length := by
  have hle := length_dropWhile_le (· != '"') cs
  unfold readText at h
  split at h
  · simp at h
  · rename_i heq
    simp only [Except.ok.injEq, Prod.mk.injEq] at h
    rw [heq, List.length_cons, h.2] at hle
    omega

theorem readQuotedSheet_rest_le {cs rest : List Char} {t : Token}
    (h : readQuotedSheet cs = .ok (t, rest)) : rest.length ≤ cs.length := by
  have hle := length_dropWhile_le (· != '\'') cs
  unfold readQuotedSheet at h
  split at h
  · simp at h
  · rename_i after heq
    have hblank := length_dropWhile_le isBlank after
    split at h
    · rename_i hmark
      simp only [Except.ok.injEq, Prod.mk.injEq] at h
      rw [heq, List.length_cons] at hle
      rw [hmark, List.length_cons, h.2] at hblank
      omega
    · simp at h

theorem readName_rest_le {c : Char} {cs rest : List Char} {t : Token}
    (h : readName c cs = .ok (t, rest)) : rest.length ≤ cs.length := by
  have hle := length_dropWhile_le isNameChar cs
  have hblank := length_dropWhile_le isBlank (cs.dropWhile isNameChar)
  unfold readName at h
  dsimp only at h
  split at h
  · rename_i hmark
    simp only [Except.ok.injEq, Prod.mk.injEq] at h
    rw [hmark, List.length_cons, h.2] at hblank
    omega
  · split at h
    · simp only [Except.ok.injEq, Prod.mk.injEq] at h
      rw [← h.2]
      exact hle
    · simp at h

theorem readNumber_rest_le {c : Char} {cs rest : List Char} {t : Token}
    (h : readNumber c cs = .ok (t, rest)) : rest.length ≤ cs.length := by
  have hle := length_dropWhile_le Decimal.isDigit cs
  unfold readNumber at h
  dsimp only at h
  split at h
  · split at h
    · simp at h
    · simp only [Except.ok.injEq, Prod.mk.injEq] at h
      rw [← h.2]
      exact hle
  · split at h
    · rename_i after heq
      have hfraction := length_dropWhile_le Decimal.isDigit after
      simp only [Except.ok.injEq, Prod.mk.injEq] at h
      rw [heq, List.length_cons] at hle
      rw [h.2] at hfraction
      omega
    · simp only [Except.ok.injEq, Prod.mk.injEq] at h
      rw [← h.2]
      exact hle

theorem readError_rest_le {c : Char} {cs rest : List Char} {t : Token}
    (h : readError (c :: cs) = .ok (t, rest)) : rest.length ≤ cs.length := by
  unfold readError ErrorKind.readLiteral? at h
  split at h
  · rename_i kind after heq
    simp only [Except.ok.injEq, Prod.mk.injEq] at h
    obtain ⟨k, -, hk⟩ := Option.map_eq_some_iff.1 heq
    simp only [Prod.mk.injEq] at hk
    have hpos : 0 < k.spelling.toList.length := by cases k <;> decide
    rw [← h.2, ← hk.2, List.length_drop, List.length_cons]
    omega
  · simp at h

/-- A token takes at least its first character. -/
theorem lexeme_rest_le {c : Char} {cs rest : List Char} {t : Token}
    (h : lexeme c cs = .ok (t, rest)) : rest.length ≤ cs.length := by
  unfold lexeme at h
  split at h
  · simp only [Except.ok.injEq, Prod.mk.injEq] at h
    exact Nat.le_of_eq (congrArg List.length h.2.symm)
  · split at h
    · simp only [Except.ok.injEq, Prod.mk.injEq] at h
      exact Nat.le_of_eq (congrArg List.length h.2.symm)
    split at h
    · simp only [Except.ok.injEq, Prod.mk.injEq] at h
      exact Nat.le_of_eq (congrArg List.length h.2.symm)
    split at h
    · exact readText_rest_le h
    split at h
    · exact readQuotedSheet_rest_le h
    split at h
    · exact readError_rest_le h
    split at h
    · exact readName_rest_le h
    split at h
    · exact readNumber_rest_le h
    · simp at h

/-- The tokens of the characters, after the tokens `done` in reverse (the loop of `tokenize`). -/
def tokenizeAfter (done : List Token) : List Char → Except ParseError (List Token)
  | [] => .ok done.reverse
  | c :: cs =>
    if isBlank c then tokenizeAfter done cs
    else
      match h : lexeme c cs with
      | .error e => .error e
      | .ok (t, rest) =>
        have := lexeme_rest_le h
        tokenizeAfter (t :: done) rest
termination_by cs => cs.length

/-- The tokens of a formula without its equals sign, or the first error (`tokenize`). -/
def tokenize (cs : List Char) : Except ParseError (List Token) :=
  tokenizeAfter [] cs

end Spreadsheet.Formula
