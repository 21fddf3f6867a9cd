import Spreadsheet.Formula.Eval
import Spreadsheet.Proofs.Decimal.Normal
import Spreadsheet.Proofs.Formula.Grammar

/-!
# Outcomes of formulas

Numbers enter a formula as they are written, through references, and through texts that denote one.
All of them are proper, and every operator keeps them so.

Results:
* `CellValue.IsResult`: what the value of a formula can be.
* `Expr.Parsed.proper_numbers`: the numbers written in a formula are proper.
* `proper_apply`: the result of an operator is proper, whatever its operands are.
* `Expr.Parsed.isResult_value`: over proper values a formula amounts to a result.
-/

namespace Spreadsheet

namespace CellValue

/-- A number is proper; other values have no normal form. -/
def Proper : CellValue → Prop
  | number n => n.Proper
  | text _ | error _ => True

/-- A value that a formula can have: a proper number, a text that starts with no spelling of an
    error, or an error with the detail of its kind. -/
def IsResult : CellValue → Prop
  | number n => n.Proper
  | text s => ∀ kind : ErrorKind, ¬ kind.spelling.toList <+: s.toList
  | error e => e = CellError.standard e.kind

theorem IsResult.proper {v : CellValue} (h : v.IsResult) : v.Proper := by
  cases v with
  | number n => exact h
  | text s => trivial
  | error e => trivial

theorem isResult_standardError (kind : ErrorKind) : (standardError kind).IsResult :=
  rfl

end CellValue

namespace ErrorKind

theorem mem_all (kind : ErrorKind) : kind ∈ all := by
  cases kind <;> decide

theorem ofStart?_eq_none_iff {s : String} :
    ofStart? s = none ↔ ∀ kind : ErrorKind, ¬ kind.spelling.toList <+: s.toList := by
  rw [ofStart?, List.find?_eq_none]
  constructor
  · intro h kind hprefix
    exact h kind (mem_all kind) (List.isPrefixOf_iff_prefix.2 hprefix)
  · intro h kind _ hprefix
    exact h kind (List.isPrefixOf_iff_prefix.1 hprefix)

end ErrorKind

namespace Formula

/-! ## Operators -/

/-- A number between operators is proper. -/
def Scalar.Proper : Scalar → Prop
  | number n => n.Proper
  | _ => True

theorem Scalar.proper_ofCell {v : Option CellValue} (h : ∀ value ∈ v, value.Proper) :
    (ofCell v).Proper := by
  rcases v with _ | value
  · trivial
  · cases value with
    | number n => exact h _ rfl
    | text s => trivial
    | error e => trivial

/-- An operand that is a number, or a text that denotes one, gives a proper number. -/
theorem Scalar.Proper.toNumber {v : Scalar} (h : v.Proper) {n : Decimal} (hn : v.toNumber = .ok n) :
    n.Proper := by
  cases v with
  | blank =>
    obtain rfl := Except.ok.inj hn
    exact Decimal.proper_zero
  | number m =>
    obtain rfl := Except.ok.inj hn
    exact h
  | text s =>
    rcases hm : Decimal.ofText? s with _ | m
    · simp [Scalar.toNumber, hm] at hn
    · obtain rfl : m = n := by simpa [Scalar.toNumber, hm] using hn
      exact Decimal.proper_of_ofText? hm
  | error kind => cases hn

theorem Scalar.Proper.sign_apply {v : Scalar} (h : v.Proper) (sign : Sign) :
    (sign.apply v).Proper := by
  unfold Sign.apply
  split
  · trivial
  · rename_i n hn
    cases sign with
    | plus => exact h.toNumber hn
    | minus => exact (h.toNumber hn).neg

/-- A result of arithmetic is checked for its range and brought into normal form. -/
theorem proper_compute (f : Decimal → Decimal → Except ErrorKind Decimal) (left right : Scalar) :
    (compute f left right).Proper := by
  unfold compute
  dsimp only
  split
  · trivial
  · split
    · rename_i hrange
      exact Decimal.proper_normalize hrange
    · trivial

/-- The result of an operator is proper, whatever its operands are. -/
theorem proper_apply (op : Operator) (left right : Scalar) : (op.apply left right).Proper := by
  unfold Operator.apply
  split
  · trivial
  · split
    · exact proper_compute _ left right
    · trivial

/-! ## Trees -/

/-- The numbers written in a tree, from left to right. -/
def Expr.numbers : Expr → List Decimal
  | number _ value => [value]
  | text _ | error _ | ref _ => []
  | signed _ operand => operand.numbers
  | binary _ left right => left.numbers ++ right.numbers
  | group inner => inner.numbers

theorem proper_numbers_of_derives {s : Symbol} {ts : List Token} {e : Expr} (h : Derives s ts e)
    (hrange : ∀ t ∈ ts, t.InRange) : ∀ n ∈ e.numbers, n.Proper := by
  induction h with
  | sum_more _ _ _ ihl ihr | product_more _ _ _ ihl ihr | concatenation_more _ _ ihl ihr =>
    obtain ⟨hl, hr⟩ := List.forall_mem_append.1 hrange
    exact List.forall_mem_append.2 ⟨ihl hl, ihr (List.forall_mem_cons.1 hr).2⟩
  | factor_signed sign _ ih => exact ih (List.forall_mem_cons.1 hrange).2
  | group _ ih =>
    obtain ⟨hinner, -⟩ := List.forall_mem_append.1 (List.forall_mem_cons.1 hrange).2
    exact ih hinner
  | number text =>
    intro n hn
    obtain rfl := List.mem_singleton.1 hn
    exact ⟨Decimal.isNormal_normalize _, hrange _ (List.mem_singleton_self _)⟩
  | text | error | cell | qualified => exact fun _ hn => absurd hn List.not_mem_nil
  | _ => rename_i ih; exact ih hrange

/-- The numbers written in a formula are proper. -/
theorem Expr.Parsed.proper_numbers {e : Expr} (h : e.Parsed) : ∀ n ∈ e.numbers, n.Proper := by
  obtain ⟨-, hrange, hderives⟩ := derives_of_parseTokens h.wellFormed h.parseTokens_eq
  exact proper_numbers_of_derives hderives hrange

/-- The outcome of a tree is proper if its numbers are and what its references read. -/
theorem Expr.proper_scalar {lookup : Lookup} {e : Expr} (hnumbers : ∀ n ∈ e.numbers, n.Proper)
    (hreads : ∀ r ∈ e.references, (lookup.read r).Proper) : (e.scalar lookup).Proper := by
  induction e with
  | number text value => exact hnumbers value (List.mem_singleton_self value)
  | text s => trivial
  | error kind => trivial
  | ref r => exact hreads r (List.mem_singleton_self r)
  | signed sign operand ih => exact (ih hnumbers hreads).sign_apply sign
  | binary op left right => exact proper_apply op _ _
  | group inner ih => exact ih hnumbers hreads

/-! ## The value of a cell -/

theorem Scalar.Proper.isResult_toCell {v : Scalar} (h : v.Proper) : v.toCell.IsResult := by
  cases v with
  | blank => exact Decimal.proper_zero
  | number n => exact Decimal.proper_normalize h.inRange
  | text s =>
    unfold Scalar.toCell
    dsimp only
    split
    · exact CellValue.isResult_standardError _
    · rename_i hstart
      exact ErrorKind.ofStart?_eq_none_iff.1 hstart
  | error kind => exact CellValue.isResult_standardError kind

/-- Over proper values a formula amounts to a result. -/
theorem Expr.Parsed.isResult_value {lookup : Lookup} {e : Expr} (h : e.Parsed)
    (hreads : ∀ r ∈ e.references, (lookup.read r).Proper) : (e.value lookup).IsResult :=
  (Expr.proper_scalar h.proper_numbers hreads).isResult_toCell

end Formula

end Spreadsheet
