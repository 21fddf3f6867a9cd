import Spreadsheet.Formula.Eval
import Spreadsheet.Proofs.Formula.Limits
import Spreadsheet.Proofs.Formula.Parser

/-!
# Calls inside each other

A function that recurses over a tree needs room for the calls that are open at once. These are as
many as the tree is high, and a tree is no higher than it has inner nodes, but for the leaf at the
end. The inner nodes are what the check of the limits counts: each has an operator or a pair of
parentheses of its own among the tokens.

Results:
* `Counted` is a run that counts its calls, `Fold.walk` the run of a function that recurses over a
  tree.
* `Fold.Computes.walk_eq`: a run has the result of the function, and as many of its calls are open
  at once as the tree is high.
* `computes_evaluator` and others: the functions on formulas that recurse like this.
* `countP_tokens`, `Expr.height_le`: counted tokens, inner nodes and height.
* `Expr.Parsed.small`, `Expr.Small.renameSheet`: the bounds on a tree that was read from a text,
  also with a sheet renamed in it.
-/

namespace Spreadsheet.Formula

/-! ## Counting calls -/

/-- The result of a run, and the most calls in it that were open at once. -/
structure Counted (ε α : Type) where
  result : Except ε α
  calls : Nat

namespace Counted

variable {ε α : Type}

def fail (e : ε) : Counted ε α :=
  ⟨.error e, 0⟩

/-- A run inside one more call. -/
def call (x : Counted ε α) : Counted ε α :=
  ⟨x.result, x.calls + 1⟩

/-- Of two runs one after the other, the second starts when the calls of the first are over. -/
instance : Monad (Counted ε) where
  pure a := ⟨.ok a, 0⟩
  bind x f :=
    match x.result with
    | .error e => ⟨.error e, x.calls⟩
    | .ok a => ⟨(f a).result, max x.calls (f a).calls⟩

end Counted

/-! ## Functions that recurse over a tree -/

/-- What a function makes of a leaf, and of a node from what it makes of its operands. -/
structure Fold (α : Type) where
  number : String → Decimal → α
  text : String → α
  error : ErrorKind → α
  ref : Reference → α
  signed : Sign → α → α
  binary : Operator → α → α → α
  group : α → α

namespace Fold

variable {α : Type}

/-- The function `g` recurses over trees in this way. -/
structure Computes (f : Fold α) (g : Expr → α) : Prop where
  number : ∀ text value, g (.number text value) = f.number text value
  text : ∀ s, g (.text s) = f.text s
  error : ∀ kind, g (.error kind) = f.error kind
  ref : ∀ r, g (.ref r) = f.ref r
  signed : ∀ sign operand, g (.signed sign operand) = f.signed sign (g operand)
  binary : ∀ op left right, g (.binary op left right) = f.binary op (g left) (g right)
  group : ∀ inner, g (.group inner) = f.group (g inner)

/-- The run of the function: a call for the tree, and inside it one for each operand. -/
def walk (f : Fold α) : Expr → Counted Empty α
  | .number text value => .call (pure (f.number text value))
  | .text s => .call (pure (f.text s))
  | .error kind => .call (pure (f.error kind))
  | .ref r => .call (pure (f.ref r))
  | .signed sign operand => .call do return f.signed sign (← f.walk operand)
  | .binary op left right => .call do
    let l ← f.walk left
    let r ← f.walk right
    return f.binary op l r
  | .group inner => .call do return f.group (← f.walk inner)

end Fold

/-- The most nodes of a tree that stand below each other. -/
def Expr.height : Expr → Nat
  | number _ _ | text _ | error _ | ref _ => 1
  | signed _ operand => operand.height + 1
  | binary _ left right => max left.height right.height + 1
  | group inner => inner.height + 1

theorem Fold.Computes.walk_eq {α : Type} {f : Fold α} {g : Expr → α} (h : f.Computes g) (e : Expr) :
    f.walk e = ⟨.ok (g e), e.height⟩ := by
  induction e with
  | number text value => rw [h.number]; rfl
  | text s => rw [h.text]; rfl
  | error kind => rw [h.error]; rfl
  | ref r => rw [h.ref]; rfl
  | signed sign operand ih =>
    rw [h.signed, walk, ih]
    simp [Counted.call, bind, pure, Expr.height]
  | binary op left right ihl ihr =>
    rw [h.binary, walk, ihl, ihr]
    simp [Counted.call, bind, pure, Expr.height]
  | group inner ih =>
    rw [h.group, walk, ih]
    simp [Counted.call, bind, pure, Expr.height]

/-! ## The functions on formulas -/

def evaluator (lookup : Lookup) : Fold Scalar where
  number _ value := .number value
  text := .text
  error := .error
  ref := lookup.read
  signed := Sign.apply
  binary := Operator.apply
  group v := v

def printer : Fold (List Char) where
  number written _ := written.toList
  text s := '"' :: s.toList ++ ['"']
  error kind := kind.spelling.toList
  ref := Reference.print
  signed sign operand := sign.operator.char :: operand
  binary op left right := left ++ op.char :: right
  group inner := '(' :: inner ++ [')']

def renamer (old new : String) : Fold Expr where
  number := .number
  text := .text
  error := .error
  ref r := .ref (r.renameSheet old new)
  signed := .signed
  binary := .binary
  group := .group

def collector : Fold (List Reference) where
  number _ _ := []
  text _ := []
  error _ := []
  ref r := [r]
  signed _ operand := operand
  binary _ left right := left ++ right
  group inner := inner

theorem computes_evaluator (lookup : Lookup) :
    (evaluator lookup).Computes (Expr.scalar lookup) := by
  constructor <;> intros <;> rfl

theorem computes_printer : printer.Computes Expr.print := by
  constructor <;> intros <;> rfl

theorem computes_renamer (old new : String) :
    (renamer old new).Computes (Expr.renameSheet old new) := by
  constructor <;> intros <;> rfl

theorem computes_collector : collector.Computes Expr.references := by
  constructor <;> intros <;> rfl

/-! ## The size of a tree -/

/-- The signs, operators and pairs of parentheses of a tree. -/
def Expr.innerNodes : Expr → Nat
  | number _ _ | text _ | error _ | ref _ => 0
  | signed _ operand => operand.innerNodes + 1
  | binary _ left right => left.innerNodes + right.innerNodes + 1
  | group inner => inner.innerNodes + 1

theorem Expr.height_le (e : Expr) : e.height ≤ e.innerNodes + 1 := by
  induction e with
  | signed sign operand ih => exact Nat.succ_le_succ ih
  | binary op left right ihl ihr =>
    rw [height, innerNodes]
    omega
  | group inner ih => exact Nat.succ_le_succ ih
  | _ => exact Nat.le_refl 1

/-- Every inner node has one token of its own that is counted. -/
theorem countP_tokens (e : Expr) : e.tokens.countP Token.isCounted = e.innerNodes := by
  induction e with
  | ref r => obtain ⟨_ | sheet, address⟩ := r <;> rfl
  | signed sign operand ih =>
    simp [Expr.tokens, Expr.innerNodes, List.countP_cons, Token.isCounted, ih]
  | binary op left right ihl ihr =>
    simp [Expr.tokens, Expr.innerNodes, List.countP_cons, Token.isCounted, ihl, ihr, Nat.add_assoc]
  | group inner ih => simp [Expr.tokens, Expr.innerNodes, List.countP_cons, Token.isCounted, ih]
  | _ => rfl

theorem size_mapSheet (f : SheetName → SheetName) (e : Expr) :
    (e.mapSheet f).innerNodes = e.innerNodes ∧ (e.mapSheet f).height = e.height := by
  induction e with
  | signed sign operand ih => simp [Expr.mapSheet, Expr.innerNodes, Expr.height, ih]
  | binary op left right ihl ihr => simp [Expr.mapSheet, Expr.innerNodes, Expr.height, ihl, ihr]
  | group inner ih => simp [Expr.mapSheet, Expr.innerNodes, Expr.height, ih]
  | _ => exact ⟨rfl, rfl⟩

/-- A tree with at most as many inner nodes as the limits allow, and so with at most one more node
    below each other. -/
structure Expr.Small (e : Expr) : Prop where
  innerNodes_le : e.innerNodes ≤ maxOperators
  height_le : e.height ≤ maxOperators + 1

theorem Expr.Parsed.small {e : Expr} (h : e.Parsed) : e.Small := by
  obtain ⟨-, hlimits, -⟩ := parseTokens_eq_ok_iff.1 h.parseTokens_eq
  have hle := ((checkLimits_tokens e).1 hlimits).operators_le
  rw [countP_tokens] at hle
  exact ⟨hle, e.height_le.trans (Nat.succ_le_succ hle)⟩

theorem Expr.Small.renameSheet {e : Expr} (h : e.Small) (old new : String) :
    (e.renameSheet old new).Small := by
  obtain ⟨hnodes, hheight⟩ := size_mapSheet (·.rename old new) e
  rw [renameSheet_eq_mapSheet]
  exact ⟨hnodes ▸ h.innerNodes_le, hheight ▸ h.height_le⟩

end Spreadsheet.Formula
