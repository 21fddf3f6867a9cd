import Spreadsheet.Json.Token
import Spreadsheet.Text.Reader

/-!
# Reading JSON documents

* `value n` reads a value with fewer than `n` arrays and objects open at once; the readers below it
  take the reader of what stands in brackets.
* `Json.parse?` reads a whole document: one value and nothing else.
-/

namespace Spreadsheet.Json

/-- A document that breaks the rules; which rule does not matter. -/
inductive Malformed where
  | malformed
deriving DecidableEq, Repr

/-- A reader of values off a token list. -/
abbrev ValueReader := Reader Malformed Token Json

/-- The most arrays and objects that may be open at once. -/
def maxDepth : Nat := 127

/-! ## Arrays -/

/-- The items of an array after its first bracket and the items `done` in reverse; `item` reads one
    of them. -/
def items (item : ValueReader) (done : List Json) (tokens : List Token) :
    Except Malformed (Found Token Json tokens.length) :=
  match item tokens with
  | .error e => .error e
  | .ok ⟨v, .closeBracket :: rest, h⟩ =>
    .ok ⟨.array (v :: done).reverse, rest, by simp only [List.length_cons] at h; omega⟩
  | .ok ⟨v, .comma :: rest, h⟩ =>
    have hlt : rest.length < tokens.length := by simp only [List.length_cons] at h; omega
    match items item (v :: done) rest with
    | .error e => .error e
    | .ok ⟨v, rest', h'⟩ => .ok ⟨v, rest', by omega⟩
  | .ok _ => .error .malformed
termination_by tokens.length

/-! ## Objects -/

/-- The members of an object after its first brace and the members `done`; `item` reads the value of
    one. -/
def members (item : ValueReader) (done : List (String × Json)) (tokens : List Token) :
    Except Malformed (Found Token Json tokens.length) :=
  match tokens with
  | .scalar (.string key) :: .colon :: tokens =>
    match item tokens with
    | .error e => .error e
    | .ok ⟨v, .closeBrace :: rest, h⟩ =>
      .ok ⟨.object (put done key v), rest, by simp only [List.length_cons] at h ⊢; omega⟩
    | .ok ⟨v, .comma :: rest, h⟩ =>
      have hlt : rest.length < tokens.length := by simp only [List.length_cons] at h; omega
      match members item (put done key v) rest with
      | .error e => .error e
      | .ok ⟨v, rest', h'⟩ => .ok ⟨v, rest', by simp only [List.length_cons]; omega⟩
    | .ok _ => .error .malformed
  | _ => .error .malformed
termination_by tokens.length

/-! ## Values -/

/-- A value whose parts are read by `inner`. -/
def valueWith (inner : ValueReader) : ValueReader
  | .scalar v :: rest => .ok ⟨v, rest, by simp⟩
  | .openBracket :: .closeBracket :: rest =>
    .ok ⟨.array [], rest, by simp only [List.length_cons]; omega⟩
  | .openBracket :: tokens =>
    match items inner [] tokens with
    | .error e => .error e
    | .ok ⟨v, rest, h⟩ => .ok ⟨v, rest, by simp only [List.length_cons]; omega⟩
  | .openBrace :: .closeBrace :: rest =>
    .ok ⟨.object [], rest, by simp only [List.length_cons]; omega⟩
  | .openBrace :: tokens =>
    match members inner [] tokens with
    | .error e => .error e
    | .ok ⟨v, rest, h⟩ => .ok ⟨v, rest, by simp only [List.length_cons]; omega⟩
  | _ => .error .malformed

/-- A value without parts. -/
def scalarValue : ValueReader
  | .scalar v :: rest => .ok ⟨v, rest, by simp⟩
  | _ => .error .malformed

/-- A value with at most `n` arrays and objects open at once. -/
def value : (n : Nat) → ValueReader
  | 0 => scalarValue
  | n + 1 => valueWith (value n)

/-- The value of a document (`from_reader`). -/
def parse? (text : String) : Option Json :=
  match tokenize? text.toList with
  | none => none
  | some tokens =>
    match value maxDepth tokens with
    | .ok ⟨v, [], _⟩ => some v
    | _ => none

end Spreadsheet.Json
