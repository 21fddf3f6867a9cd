import Spreadsheet.Proofs.Formula.Outcome

/-!
# Errors in formulas

An operand is an error if it is an error value or a text spelled exactly like one. No operator loses
an error of its operands, whichever of the two forms it has, and of two errors the left one is kept.
So the error of a tree is that of its leftmost leaf with one, unless a part without such leaves
fails on its own.

Results:
* `Scalar.Signals`, `error?_eq_some_iff`: the errors that evaluation looks for.
* `sign_apply_of_error?`, `apply_of_error?`: operators pass errors on before anything else.
* `error?_scalar_ne_none`: a tree with an error in a leaf amounts to an error.
* `error?_scalar`: it is the leftmost error, if no part fails on its own.
* `leftmost_error_wins`: both, for the value of a cell.
-/

namespace Spreadsheet

namespace ErrorKind

theorem ofCanonical?_eq_some_iff {s : String} {kind : ErrorKind} :
    ofCanonical? s = some kind ↔ s = kind.spelling := by
  constructor
  · intro h
    have hspelling := List.find?_some h
    exact (beq_iff_eq.1 hspelling).symm
  · rintro rfl
    cases kind <;> decide

theorem ofStart?_spelling (kind : ErrorKind) : ofStart? kind.spelling = some kind := by
  cases kind <;> decide

end ErrorKind

namespace Formula

/-! ## Operands that are errors -/

namespace Scalar

/-- The operand is this error, as a value or as a text spelled exactly like it. -/
def Signals (v : Scalar) (kind : ErrorKind) : Prop :=
  v = error kind ∨ v = text kind.spelling

/-- The operand is an error of some kind. -/
def IsError (v : Scalar) : Prop :=
  ∃ kind, v.Signals kind

theorem error?_eq_some_iff {v : Scalar} {kind : ErrorKind} :
    v.error? = some kind ↔ v.Signals kind := by
  cases v with
  | error k => simp [error?, Signals]
  | text s => simp [error?, Signals, ErrorKind.ofCanonical?_eq_some_iff]
  | _ => simp [error?, Signals]

theorem error?_eq_none_iff {v : Scalar} : v.error? = none ↔ ¬ v.IsError := by
  simp only [IsError, ← error?_eq_some_iff, Option.eq_none_iff_forall_ne_some, ne_eq, not_exists]

/-- An operand that is an error has no number. -/
theorem toNumber_of_signals {v : Scalar} {kind : ErrorKind} (h : v.Signals kind) :
    ∃ k, v.toNumber = .error k := by
  rcases h with rfl | rfl
  · exact ⟨kind, rfl⟩
  · have hnumber : Decimal.ofText? kind.spelling = none := by cases kind <;> decide +kernel
    exact ⟨.value, by rw [toNumber, hnumber]⟩

theorem toCell_of_signals {v : Scalar} {kind : ErrorKind} (h : v.Signals kind) :
    v.toCell = .standardError kind := by
  rcases h with rfl | rfl
  · rfl
  · rw [toCell, ErrorKind.ofStart?_spelling]

end Scalar

/-! ## Operators -/

/-- A sign passes an error on. -/
theorem sign_apply_of_error? {v : Scalar} {kind : ErrorKind} (h : v.error? = some kind)
    (sign : Sign) : sign.apply v = .error kind := by
  obtain ⟨k, hnumber⟩ := Scalar.toNumber_of_signals (Scalar.error?_eq_some_iff.1 h)
  rw [Sign.apply, hnumber, h]
  rfl

/-- An operator passes the error of an operand on, the left one first. Neither the numbers of the
    operands nor a divisor of zero matter then. -/
theorem apply_of_error? {left right : Scalar} {kind : ErrorKind}
    (h : (left.error? <|> right.error?) = some kind) (op : Operator) :
    op.apply left right = .error kind := by
  rw [Operator.apply, h]

/-! ## Trees -/

/-- The leaves of a tree, from left to right. -/
def Expr.leaves : Expr → List Expr
  | signed _ operand => operand.leaves
  | binary _ left right => left.leaves ++ right.leaves
  | group inner => inner.leaves
  | e => [e]

/-- The tree and all its parts. -/
def Expr.subtrees : Expr → List Expr
  | signed sign operand => signed sign operand :: operand.subtrees
  | binary op left right => binary op left right :: (left.subtrees ++ right.subtrees)
  | group inner => group inner :: inner.subtrees
  | e => [e]

theorem Expr.mem_subtrees_self (e : Expr) : e ∈ e.subtrees := by
  cases e <;> exact List.mem_cons_self

/-- The error of the leftmost leaf that is one. -/
def Expr.leafError? (lookup : Lookup) (e : Expr) : Option ErrorKind :=
  e.leaves.findSome? fun leaf => (leaf.scalar lookup).error?

section Leaves

variable {lookup : Lookup}

theorem leafError?_binary (op : Operator) (left right : Expr) :
    (Expr.binary op left right).leafError? lookup =
      (left.leafError? lookup <|> right.leafError? lookup) := by
  show (left.leaves ++ right.leaves).findSome? _ = _
  rw [List.findSome?_append]
  cases h : left.leaves.findSome? fun leaf => (leaf.scalar lookup).error? <;>
    simp [Expr.leafError?, h]

theorem leafError?_eq_none_iff {e : Expr} :
    e.leafError? lookup = none ↔ ∀ leaf ∈ e.leaves, ¬ (leaf.scalar lookup).IsError := by
  simp only [Expr.leafError?, List.findSome?_eq_none_iff, Scalar.error?_eq_none_iff]

/-- A tree with an error in a leaf amounts to an error. -/
theorem error?_scalar_ne_none {e : Expr} (h : e.leafError? lookup ≠ none) :
    (e.scalar lookup).error? ≠ none := by
  induction e with
  | signed sign operand ih =>
    obtain ⟨kind, hkind⟩ := Option.ne_none_iff_exists'.1 (ih h)
    rw [Expr.scalar, sign_apply_of_error? hkind]
    exact Option.some_ne_none kind
  | binary op left right ihl ihr =>
    have herror : ((left.scalar lookup).error? <|> (right.scalar lookup).error?) ≠ none := by
      rw [leafError?_binary] at h
      by_cases hleft : left.leafError? lookup = none
      · have hright : right.leafError? lookup ≠ none := by simpa [hleft] using h
        simp [ihr hright]
      · simp [ihl hleft]
    obtain ⟨kind, hkind⟩ := Option.ne_none_iff_exists'.1 herror
    rw [Expr.scalar, apply_of_error? hkind]
    exact Option.some_ne_none kind
  | group inner ih => exact ih h
  | _ => simpa [Expr.leafError?, Expr.leaves] using h

/-- A tree amounts to its leftmost error, if no part without errors in its leaves amounts to one. -/
theorem error?_scalar {e : Expr} (h : ∀ sub ∈ e.subtrees, sub.leafError? lookup = none →
    (sub.scalar lookup).error? = none) :
    (e.scalar lookup).error? = e.leafError? lookup := by
  rcases hleaf : e.leafError? lookup with _ | kind
  · exact h e e.mem_subtrees_self hleaf
  -- a leaf is an error, so an operator has an operand to pass on
  · induction e generalizing kind with
    | signed sign operand ih =>
      have hoperand := ih (fun sub hsub => h sub (List.mem_cons_of_mem _ hsub)) kind hleaf
      rw [Expr.scalar, sign_apply_of_error? hoperand]
      rfl
    | binary op left right ihl ihr =>
      rw [leafError?_binary] at hleaf
      have hl (sub : Expr) (hsub : sub ∈ left.subtrees) :=
        h sub (List.mem_cons_of_mem _ (List.mem_append_left _ hsub))
      have hr (sub : Expr) (hsub : sub ∈ right.subtrees) :=
        h sub (List.mem_cons_of_mem _ (List.mem_append_right _ hsub))
      have herror : ((left.scalar lookup).error? <|> (right.scalar lookup).error?) = some kind := by
        rcases hleft : left.leafError? lookup with _ | k
        · rw [hleft] at hleaf
          rw [hl left left.mem_subtrees_self hleft, ihr hr kind hleaf]
          rfl
        · rw [hleft] at hleaf
          obtain rfl : k = kind := Option.some.inj hleaf
          rw [ihl hl k hleft]
          rfl
      rw [Expr.scalar, apply_of_error? herror]
      rfl
    | group inner ih => exact ih (fun sub hsub => h sub (List.mem_cons_of_mem _ hsub)) kind hleaf
    | _ => simpa [Expr.leafError?, Expr.leaves] using hleaf

end Leaves

/-! ## The value of a cell -/

/-- Errors are never lost, and the leftmost one wins. If a leaf is an error then the value is an
    error. If moreover no part without such leaves amounts to an error, then the value is the error
    of the leftmost leaf that is one. -/
theorem leftmost_error_wins (lookup : Lookup) (e : Expr) :
    ((∃ leaf ∈ e.leaves, (leaf.scalar lookup).IsError) →
      ∃ kind, e.value lookup = .standardError kind) ∧
    ((∀ sub ∈ e.subtrees, (∀ leaf ∈ sub.leaves, ¬ (leaf.scalar lookup).IsError) →
        ¬ (sub.scalar lookup).IsError) →
      ∀ before leaf after kind, e.leaves = before ++ leaf :: after →
        (∀ l ∈ before, ¬ (l.scalar lookup).IsError) → (leaf.scalar lookup).Signals kind →
        e.value lookup = .standardError kind) := by
  constructor
  · rintro ⟨leaf, hleaf, herror⟩
    have hne : e.leafError? lookup ≠ none := fun hnone =>
      leafError?_eq_none_iff.1 hnone leaf hleaf herror
    obtain ⟨kind, hkind⟩ := Option.ne_none_iff_exists'.1 (error?_scalar_ne_none hne)
    exact ⟨kind, Scalar.toCell_of_signals (Scalar.error?_eq_some_iff.1 hkind)⟩
  · intro hparts before leaf after kind hleaves hbefore hleaf
    have hfirst : e.leafError? lookup = some kind := by
      have hnone : before.findSome? (fun l => (l.scalar lookup).error?) = none :=
        List.findSome?_eq_none_iff.2 fun l hl => Scalar.error?_eq_none_iff.2 (hbefore l hl)
      rw [Expr.leafError?, hleaves, List.findSome?_append, hnone, List.findSome?_cons,
        Scalar.error?_eq_some_iff.2 hleaf]
      rfl
    have hkind : (e.scalar lookup).error? = some kind := by
      rw [error?_scalar, hfirst]
      intro sub hsub hnone
      exact Scalar.error?_eq_none_iff.2 (hparts sub hsub (leafError?_eq_none_iff.1 hnone))
    exact Scalar.toCell_of_signals (Scalar.error?_eq_some_iff.1 hkind)

/-- A text that reads like an error is passed on through parentheses, and a divisor of zero comes
    too late. -/
theorem leftmost_error_wins_text :
    let e : Expr := .binary .div
      (.group (.binary .concat (.ref ⟨none, "A1"⟩) (.text "x"))) (.number "0" ⟨0, 0⟩)
    parse "=(A1&\"x\")/0" = .ok e ∧
      e.value ⟨fun _ => .text "#REF!", fun _ _ => .blank⟩ = .standardError .reference := by
  intro e
  let lookup : Lookup := ⟨fun _ => .text "#REF!", fun _ _ => .blank⟩
  have hparts : ∀ sub ∈ e.subtrees, sub.leafError? lookup = none →
      (sub.scalar lookup).error? = none := by decide +kernel
  refine ⟨by decide +kernel, (leftmost_error_wins lookup e).2 (fun sub hsub hclean => ?_) []
    (.ref ⟨none, "A1"⟩) [.text "x", .number "0" ⟨0, 0⟩] .reference rfl (by simp) (Or.inr ?_)⟩
  · exact Scalar.error?_eq_none_iff.1 (hparts sub hsub (leafError?_eq_none_iff.2 hclean))
  · decide +kernel

/-- A part that fails on its own comes before an error to the right of it. -/
example : (parse "=1/0+#NAME?").map (Expr.value ⟨fun _ => .blank, fun _ _ => .blank⟩) =
    .ok (.standardError .division) := by decide +kernel

end Formula

end Spreadsheet
