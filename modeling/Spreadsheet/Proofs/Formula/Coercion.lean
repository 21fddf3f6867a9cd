import Spreadsheet.Formula.Parser
import Spreadsheet.Proofs.Decimal.PlainText
import Spreadsheet.Proofs.Formula.Errors

/-!
# Numbers kept as text

A number and its text are alike to every sign and operator: the text denotes exactly this number, it
is spelled like no error, and in a concatenation the number is written as this text. So a formula
amounts to the same whether the cells that it reads keep a number as such or as its text.

Results:
* `Scalar.Alike`: values that operators do not tell apart.
* `Alike.error?_eq`, `Alike.toNumber_eq`, `Alike.toText_eq`: all that an operator asks of them is
  the same.
* `alike_scalar`: over cells that are alike, trees amount to values that are alike.
* `numbers_as_text`: an operation amounts to the same.
-/

namespace Spreadsheet.Formula

/-! ## Values -/

namespace Scalar

/-- Two values are alike if they are equal or if one is a proper number and the other its text. -/
inductive Alike : Scalar → Scalar → Prop
  | same (v : Scalar) : Alike v v
  | asText {n : Decimal} (h : n.Proper) : Alike (number n) (text n.toText)
  | asNumber {n : Decimal} (h : n.Proper) : Alike (text n.toText) (number n)

/-- The text of a proper number denotes it. -/
theorem toNumber_toText {n : Decimal} (h : n.Proper) : (text n.toText).toNumber = .ok n := by
  rw [toNumber, Decimal.ofText?_toText h.inRange, h.normal.normalize_eq]

/-- So it is spelled like no error. -/
theorem error?_toText {n : Decimal} (h : n.Proper) : (text n.toText).error? = none := by
  rw [error?_eq_none_iff]
  rintro ⟨kind, hkind⟩
  obtain ⟨k, hnumber⟩ := toNumber_of_signals hkind
  rw [toNumber_toText h] at hnumber
  cases hnumber

namespace Alike

variable {v w : Scalar}

theorem error?_eq (h : v.Alike w) : v.error? = w.error? := by
  cases h with
  | same v => rfl
  | asText h => exact (error?_toText h).symm
  | asNumber h => exact error?_toText h

theorem toNumber_eq (h : v.Alike w) : v.toNumber = w.toNumber := by
  cases h with
  | same v => rfl
  | asText h => exact (toNumber_toText h).symm
  | asNumber h => exact toNumber_toText h

theorem toText_eq (h : v.Alike w) : v.toText = w.toText := by
  cases h <;> rfl

end Alike

end Scalar

open Scalar (Alike)

/-! ## Operators -/

/-- A sign does not tell values apart that are alike. -/
theorem sign_apply_congr {v w : Scalar} (h : v.Alike w) (sign : Sign) :
    sign.apply v = sign.apply w := by
  rw [Sign.apply, Sign.apply, h.toNumber_eq, h.error?_eq]

/-- Nor does an operator. -/
theorem apply_congr {left left' right right' : Scalar} (hl : left.Alike left')
    (hr : right.Alike right') (op : Operator) :
    op.apply left right = op.apply left' right' := by
  simp only [Operator.apply, compute, hl.error?_eq, hr.error?_eq, hl.toNumber_eq, hr.toNumber_eq,
    hl.toText_eq, hr.toText_eq]

/-! ## Trees -/

/-- The cells hold values that are alike. -/
structure Lookup.Alike (l l' : Lookup) : Prop where
  here : ∀ p, (l.here p).Alike (l'.here p)
  on : ∀ name p, (l.on name p).Alike (l'.on name p)

/-- The tree inside its outer parentheses. -/
def Expr.ungrouped : Expr → Expr
  | group inner => inner.ungrouped
  | e => e

/-- The tree is a sign with its operand or an operator with its operands. -/
def Expr.IsOperation : Expr → Prop
  | signed _ _ | binary _ _ _ => True
  | _ => False

section Trees

variable {l l' : Lookup} (h : l.Alike l')
include h

theorem alike_read (r : Reference) : (l.read r).Alike (l'.read r) := by
  unfold Lookup.read
  rcases Position.ofAddress r.address with _ | p
  · exact .same _
  · dsimp only
    split
    · rcases r.sheet with _ | sheet
      · exact h.here p
      · exact h.on sheet.name p
    · exact .same _

/-- Over cells that are alike, a tree amounts to values that are alike. -/
theorem alike_scalar (e : Expr) : (e.scalar l).Alike (e.scalar l') := by
  induction e with
  | ref r => exact alike_read h r
  | signed sign operand ih =>
    rw [Expr.scalar, Expr.scalar, sign_apply_congr ih]
    exact .same _
  | binary op left right ihl ihr =>
    rw [Expr.scalar, Expr.scalar, apply_congr ihl ihr]
    exact .same _
  | group inner ih => exact ih
  | _ => exact .same _

/-- An operation amounts to the same value, inside any number of parentheses. -/
theorem scalar_eq_of_isOperation {e : Expr} (he : e.ungrouped.IsOperation) :
    e.scalar l = e.scalar l' := by
  induction e with
  | signed sign operand => exact sign_apply_congr (alike_scalar h operand) sign
  | binary op left right => exact apply_congr (alike_scalar h left) (alike_scalar h right) op
  | group inner ih => exact ih he
  | _ => exact he.elim

end Trees

/-- Numbers kept as text compute alike. If the cells hold the same, but some of them a number where
    others hold its text, then a tree amounts to the same in both cases, or to a number in one and
    to its text in the other. It amounts to the same, and so has the same value, if inside its outer
    parentheses it is an operation. -/
theorem numbers_as_text {l l' : Lookup} (h : l.Alike l') (e : Expr) :
    (e.scalar l).Alike (e.scalar l') ∧
      (e.ungrouped.IsOperation → e.scalar l = e.scalar l' ∧ e.value l = e.value l') := by
  refine ⟨alike_scalar h e, fun he => ?_⟩
  have hscalar := scalar_eq_of_isOperation h he
  exact ⟨hscalar, congrArg Scalar.toCell hscalar⟩

/-- Five and its text, one more in parentheses. -/
theorem numbers_as_text_five :
    let l : Lookup := ⟨fun _ => .number ⟨5, 0⟩, fun _ _ => .blank⟩
    let l' : Lookup := ⟨fun _ => .text "5", fun _ _ => .blank⟩
    let e := Expr.group (.binary .add (.ref ⟨none, "A1"⟩) (.number "1" ⟨1, 0⟩))
    parse "=(A1+1)" = .ok e ∧ e.value l' = e.value l ∧ e.value l = .number ⟨6, 0⟩ := by
  intro l l' e
  have hfive : (⟨5, 0⟩ : Decimal).Proper := ⟨Or.inr (by decide), by decide +kernel⟩
  have htext : (⟨5, 0⟩ : Decimal).toText = "5" := by decide +kernel
  have hcell : (Scalar.number ⟨5, 0⟩).Alike (.text "5") := htext ▸ .asText hfive
  have halike : l.Alike l' := ⟨fun _ => hcell, fun _ _ => .same _⟩
  obtain ⟨-, hoperation⟩ := numbers_as_text halike e
  exact ⟨by decide +kernel, (hoperation trivial).2.symm, by decide +kernel⟩

/-- A mere reference passes the difference on. -/
example : Expr.value ⟨fun _ => .text "5", fun _ _ => .blank⟩ (.group (.ref ⟨none, "A1"⟩)) =
    .text "5" := by decide +kernel

end Spreadsheet.Formula
