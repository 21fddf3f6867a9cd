import Spreadsheet.Formula.Token
import Spreadsheet.Text.Reader

/-!
# Reading formulas

The grammar, over tokens:

```text
expression := sum | concatenation
sum := product | sum (+|-) product
product := factor | product (*|/) factor
factor := operand | (+|-) operand
concatenation := operand | concatenation & operand
operand := number | text | error | cell | sheet cell | ( expression )
```

A concatenation joins operands only, so `&` and arithmetic never meet without parentheses.

* Each nonterminal is a `Reader`; `expression n` reads an expression with fewer than `n` parentheses
  open at once, and everything below it takes the reader of what stands in parentheses.
* `checkLimits` bounds the parentheses and operators of a token list before it is read.
* `parse` reads a whole formula, `parseTokens` its tokens.
-/

namespace Spreadsheet.Formula

/-- A reader of expressions off a token list. -/
abbrev ExprReader := Reader ParseError Token Expr

/-! ## Operands -/

/-- One operand (`parse_base`); `inner` reads what stands in parentheses. -/
def operand (inner : ExprReader) : ExprReader
  | [] => .error .unexpectedEnd
  | .number text :: rest =>
    match Decimal.ofText? text with
    | some value => .ok ⟨.number text value, rest, by simp⟩
    | none => .error (.numberOutOfRange text)
  | .text s :: rest => .ok ⟨.text s, rest, by simp⟩
  | .error kind :: rest => .ok ⟨.error kind, rest, by simp⟩
  | .cell address :: rest => .ok ⟨.ref ⟨none, address⟩, rest, by simp⟩
  | .sheet name :: .cell address :: rest =>
    .ok ⟨.ref ⟨some name, address⟩, rest, by simp only [List.length_cons]; omega⟩
  | .sheet name :: _ => .error (.cellExpected name.name)
  | .opening :: tokens =>
    match inner tokens with
    | .error e => .error e
    | .ok ⟨e, .closing :: rest, h⟩ =>
      .ok ⟨.group e, rest, by simp only [List.length_cons] at h ⊢; omega⟩
    | .ok _ => .error .closingExpected
  | t :: _ => .error (.unexpectedToken t)

/-- The sign at the front of a token list. -/
def leadingSign? : List Token → Option Sign
  | .operator op :: _ => op.sign?
  | _ => none

/-- An operand with at most one sign before it (`parse_unary`). -/
def factor (inner : ExprReader) : ExprReader
  | [] => operand inner []
  | t :: tokens =>
    match leadingSign? (t :: tokens) with
    | none => operand inner (t :: tokens)
    | some sign =>
      match operand inner tokens with
      | .error e => .error e
      | .ok ⟨e, rest, h⟩ => .ok ⟨.signed sign e, rest, by simp only [List.length_cons]; omega⟩

/-! ## Chains -/

/-- The operator at the front of a token list, if it is one of those accepted. -/
def leadingOperator? (accepts : Operator → Bool) : List Token → Option Operator
  | .operator op :: _ => if accepts op then some op else none
  | _ => none

/-- The rest of a chain `left op item op item …`, grouped to the left (the loop of `parse_mul_div`,
    `parse_add_sub` and `parse_concat`). It ends at the first token that is not an accepted
    operator. -/
def chainFrom (item : ExprReader) (accepts : Operator → Bool) (left : Expr) (tokens : List Token) :
    Except ParseError (Found Token Expr (tokens.length + 1)) :=
  match tokens with
  | [] => .ok ⟨left, [], by simp⟩
  | t :: tokens =>
    match leadingOperator? accepts (t :: tokens) with
    | none => .ok ⟨left, t :: tokens, by simp⟩
    | some op =>
      match item tokens with
      | .error e => .error e
      | .ok ⟨right, rest, h⟩ =>
        match chainFrom item accepts (.binary op left right) rest with
        | .error e => .error e
        | .ok ⟨e, rest', h'⟩ => .ok ⟨e, rest', by simp only [List.length_cons]; omega⟩
termination_by tokens.length

/-- Multiplication and division. -/
def isProductOp (op : Operator) : Bool :=
  op == .mul || op == .div

/-- Addition and subtraction. -/
def isSumOp (op : Operator) : Bool :=
  op == .add || op == .sub

/-- Concatenation. -/
def isConcatOp (op : Operator) : Bool :=
  op == .concat

/-- Factors joined by multiplications and divisions (`parse_mul_div`). -/
def product (inner : ExprReader) : ExprReader := fun tokens =>
  match factor inner tokens with
  | .error e => .error e
  | .ok ⟨first, rest, h⟩ =>
    match chainFrom (factor inner) isProductOp first rest with
    | .error e => .error e
    | .ok ⟨e, rest', h'⟩ => .ok ⟨e, rest', by omega⟩

/-- The rest of a sum whose first factor has been read (`parse_add_sub`, after its first factor). -/
def sumFrom (inner : ExprReader) (first : Expr) (tokens : List Token) :
    Except ParseError (Found Token Expr (tokens.length + 1)) :=
  match chainFrom (factor inner) isProductOp first tokens with
  | .error e => .error e
  | .ok ⟨left, rest, h⟩ =>
    match chainFrom (product inner) isSumOp left rest with
    | .error e => .error e
    | .ok ⟨e, rest', h'⟩ => .ok ⟨e, rest', by omega⟩

/-! ## Expressions -/

/-- The error at a concatenation that follows arithmetic (`parse_expression`): its first operand may
    not be signed, and may not be more than an operand. -/
def concatError (tokens : List Token) : ParseError :=
  match leadingSign? tokens with
  | some sign => .unexpectedToken (.operator sign.operator)
  | none => .concatMixed

/-- A sum or a concatenation (`parse_expression`, `parse_concat`). Both start with a factor; if `&`
    follows it and it has no sign, it is the first operand of a concatenation. -/
def expressionWith (inner : ExprReader) : ExprReader := fun tokens =>
  match factor inner tokens with
  | .error e => .error e
  | .ok ⟨first, rest, h⟩ =>
    if (leadingSign? tokens).isNone && (leadingOperator? isConcatOp rest).isSome then
      match chainFrom (operand inner) isConcatOp first rest with
      | .error e => .error e
      | .ok ⟨e, rest', h'⟩ => .ok ⟨e, rest', by omega⟩
    else
      match sumFrom inner first rest with
      | .error e => .error e
      | .ok ⟨e, rest', h'⟩ =>
        if (leadingOperator? isConcatOp rest').isSome then .error (concatError tokens)
        else .ok ⟨e, rest', by omega⟩

/-- An expression with fewer than `n` parentheses open at once (`parse_expression`). -/
def expression : (n : Nat) → ExprReader
  | 0 => fun _ => .error .tooManyOpen
  | n + 1 => expressionWith (expression n)

/-! ## Whole formulas -/

/-- The first limit that a token list breaks, when `opened` parentheses are open and `operators`
    operators and opening parentheses have been counted before it (`check_depth`). A closing
    parenthesis with none open counts for nothing here. -/
def checkLimits (opened operators : Nat) : List Token → Except ParseError Unit
  | [] => .ok ()
  | .opening :: tokens =>
    if maxOpen ≤ opened then .error .tooManyOpen
    else if maxOperators ≤ operators then .error .tooManyOperators
    else checkLimits (opened + 1) (operators + 1) tokens
  | .closing :: tokens => checkLimits (opened - 1) operators tokens
  | .operator _ :: tokens =>
    if maxOperators ≤ operators then .error .tooManyOperators
    else checkLimits opened (operators + 1) tokens
  | _ :: tokens => checkLimits opened operators tokens

/-- The tree of a whole token list (`parse`, after `tokenize`). -/
def parseTokens (tokens : List Token) : Except ParseError Expr :=
  if tokens.isEmpty then .error .empty
  else
    match checkLimits 0 0 tokens with
    | .error e => .error e
    | .ok () =>
      match expression (maxOpen + 1) tokens with
      | .error e => .error e
      | .ok ⟨e, [], _⟩ => .ok e
      | .ok ⟨_, t :: _, _⟩ => .error (.unexpectedToken t)

/-- The tree of a formula (`parse`); the text starts with an equals sign, and blanks around it are
    ignored. -/
def parse (text : String) : Except ParseError Expr :=
  match trimBlank text.toList with
  | '=' :: cs =>
    match tokenize cs with
    | .error e => .error e
    | .ok tokens => parseTokens tokens
  | _ => .error .noEqualsSign

end Spreadsheet.Formula
