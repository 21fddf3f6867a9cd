import Spreadsheet.Proofs.Formula.Parser

/-!
# Looking ahead and going back

The parser decides by what follows the first factor of an expression whether this is a sum or the
first operand of a concatenation, and reads nothing twice. The grammar only says that `&` joins
operands: one could read a sum, find `&` behind it, go back to where the sum started and read an
operand, which has to end at the same place.

Results:
* `outcome_product`, `outcome_chainFrom_step` and others: a reader as readers one after the other,
  with its errors.
* `outcome_expressionWith_eq`: looking ahead finds what going back finds, errors included.
-/

namespace Spreadsheet.Formula

/-! ## Readers one after the other -/

variable {inner item : ExprReader} {accepts : Operator → Bool}

theorem outcome_operand_opening (inner : ExprReader) (tokens : List Token) :
    outcome (operand inner (.opening :: tokens)) = (do
      match ← outcome (inner tokens) with
      | (e, .closing :: rest) => .ok (.group e, rest)
      | _ => .error .closingExpected) := by
  rw [operand]
  rcases inner tokens with err | ⟨e, _ | ⟨t, rest⟩, h⟩
  · rfl
  · rfl
  · cases t <;> rfl

theorem outcome_factor_signed {t : Token} {tokens : List Token} {sign : Sign}
    (h : leadingSign? (t :: tokens) = some sign) :
    outcome (factor inner (t :: tokens)) = (do
      let (e, rest) ← outcome (operand inner tokens)
      return (.signed sign e, rest)) := by
  simp only [factor, h]
  rcases operand inner tokens with err | ⟨e, rest, h⟩ <;> rfl

theorem outcome_chainFrom_step {t : Token} {tokens : List Token} {op : Operator} (left : Expr)
    (h : leadingOperator? accepts (t :: tokens) = some op) :
    outcome (chainFrom item accepts left (t :: tokens)) = (do
      let (right, next) ← outcome (item tokens)
      outcome (chainFrom item accepts (.binary op left right) next)) := by
  rw [chainFrom]
  simp only [h]
  rcases item tokens with err | ⟨right, next, hnext⟩
  · rfl
  · simp only [outcome, Except.map, bind, Except.bind]
    rcases chainFrom item accepts (.binary op left right) next with err | ⟨e, rest, hrest⟩ <;> rfl

theorem outcome_chainFrom_done {left : Expr} {ts : List Token}
    (h : leadingOperator? accepts ts = none) :
    outcome (chainFrom item accepts left ts) = .ok (left, ts) :=
  chainFrom_eq_ok_iff.2 (.done h)

theorem outcome_product (ts : List Token) :
    outcome (product inner ts) = (do
      let (first, next) ← outcome (factor inner ts)
      outcome (chainFrom (factor inner) isProductOp first next)) := by
  rw [product]
  rcases factor inner ts with err | ⟨first, next, hnext⟩
  · rfl
  · simp only [outcome, Except.map, bind, Except.bind]
    rcases chainFrom (factor inner) isProductOp first next with err | ⟨e, rest, hrest⟩ <;> rfl

theorem outcome_sumFrom (first : Expr) (ts : List Token) :
    outcome (sumFrom inner first ts) = (do
      let (left, next) ← outcome (chainFrom (factor inner) isProductOp first ts)
      outcome (chainFrom (product inner) isSumOp left next)) := by
  rw [sumFrom]
  rcases chainFrom (factor inner) isProductOp first ts with err | ⟨left, next, hnext⟩
  · rfl
  · simp only [outcome, Except.map, bind, Except.bind]
    rcases chainFrom (product inner) isSumOp left next with err | ⟨e, rest, hrest⟩ <;> rfl

theorem factor_of_not_signed {ts : List Token} (h : leadingSign? ts = none) :
    factor inner ts = operand inner ts := by
  cases ts with
  | nil => rfl
  | cons t tokens => simp only [factor, h]

theorem operand_of_signed {ts : List Token} {sign : Sign} (h : leadingSign? ts = some sign) :
    operand inner ts = .error (.unexpectedToken (.operator sign.operator)) := by
  cases ts with
  | nil => simp [leadingSign?] at h
  | cons t tokens =>
    rw [eq_of_leadingSign? h]
    rfl

/-! ## Sums -/

/-- A sum that starts with a product. -/
def sumOf (inner : ExprReader) (ts : List Token) : Except ParseError (Expr × List Token) := do
  let (left, next) ← outcome (product inner ts)
  outcome (chainFrom (product inner) isSumOp left next)

theorem sumOf_eq (ts : List Token) :
    sumOf inner ts = (do
      let (first, next) ← outcome (factor inner ts)
      outcome (sumFrom inner first next)) := by
  rw [sumOf, outcome_product]
  simp only [outcome_sumFrom]
  rcases outcome (factor inner ts) with err | ⟨first, next⟩ <;> rfl

theorem tokens_of_sumOf (hinner : Faithful id inner) {ts rest : List Token} {e : Expr}
    (h : sumOf inner ts = .ok (e, rest)) : ts = e.tokens ++ rest := by
  rw [sumOf] at h
  rcases hleft : outcome (product inner ts) with err | ⟨left, next⟩
  · rw [hleft] at h
    cases h
  · rw [hleft] at h
    rw [(faithful_product hinner _ _ _ hleft).1]
    exact (faithful_chainRead (faithful_product hinner) (chainFrom_eq_ok_iff.1 h)).1

/-- Neither a product nor a sum goes on at a `&`. -/
theorem outcome_sumFrom_of_concat {first : Expr} {ts : List Token}
    (h : (leadingOperator? isConcatOp ts).isSome) :
    outcome (sumFrom inner first ts) = .ok (first, ts) := by
  obtain ⟨op, hop⟩ := Option.isSome_iff_exists.1 h
  have hnone (accepts : Operator → Bool) (hrefused : accepts .concat = false) :
      leadingOperator? accepts ts = none := by
    have haccepts := accepts_of_leadingOperator? hop
    cases ts with
    | nil => rfl
    | cons t tokens =>
      rw [eq_of_leadingOperator? hop]
      obtain rfl : op = .concat := by simpa [isConcatOp] using haccepts
      simp [leadingOperator?, hrefused]
  rw [outcome_sumFrom, outcome_chainFrom_done (hnone _ rfl)]
  exact outcome_chainFrom_done (hnone _ rfl)

/-! ## Expressions -/

theorem outcome_expressionWith (ts : List Token) :
    outcome (expressionWith inner ts) = (do
      let (first, next) ← outcome (factor inner ts)
      if (leadingSign? ts).isNone && (leadingOperator? isConcatOp next).isSome then
        outcome (chainFrom (operand inner) isConcatOp first next)
      else
        let (e, rest) ← outcome (sumFrom inner first next)
        if (leadingOperator? isConcatOp rest).isSome then .error (concatError ts)
        else return (e, rest)) := by
  rw [expressionWith]
  rcases factor inner ts with err | ⟨first, next, hnext⟩
  · rfl
  · simp only [outcome, Except.map, bind, Except.bind]
    by_cases hconcat : (leadingSign? ts).isNone && (leadingOperator? isConcatOp next).isSome
    · simp only [hconcat, if_true]
      rcases chainFrom (operand inner) isConcatOp first next with err | ⟨e, rest, hrest⟩ <;> rfl
    · simp only [hconcat]
      rcases sumFrom inner first next with err | ⟨e, rest, hrest⟩
      · rfl
      · by_cases hend : (leadingOperator? isConcatOp rest).isSome <;> simp [hend, pure, Except.pure]

/-- Looking at what follows the first factor finds what reading a sum and going back finds. -/
theorem outcome_expressionWith_eq (hinner : Faithful id inner) (ts : List Token) :
    outcome (expressionWith inner ts) = (do
      let (e, next) ← sumOf inner ts
      if (leadingOperator? isConcatOp next).isSome then
        let (first, afterFirst) ← outcome (operand inner ts)
        if afterFirst.length = next.length then
          outcome (chainFrom (operand inner) isConcatOp first next)
        else .error .concatMixed
      else return (e, next)) := by
  rw [outcome_expressionWith, sumOf_eq]
  rcases hfactor : outcome (factor inner ts) with err | ⟨first, next⟩
  · rfl
  simp only [bind, Except.bind]
  rcases hsign : leadingSign? ts with _ | sign
  · -- without a sign, the first factor is the operand that is read again
    rw [← factor_of_not_signed hsign, hfactor]
    by_cases hconcat : (leadingOperator? isConcatOp next).isSome
    · simp [hconcat, outcome_sumFrom_of_concat hconcat]
    · rcases hsum : outcome (sumFrom inner first next) with err | ⟨e, rest⟩
      · simp [hconcat]
      · have htokens : first.tokens ++ next = e.tokens ++ rest :=
          (faithful_sumFrom hinner hsum).1
        have hlonger (hrest : (leadingOperator? isConcatOp rest).isSome) :
            next.length ≠ rest.length := by
          intro hlength
          rw [List.append_inj_right' htokens hlength] at hconcat
          exact hconcat hrest
        by_cases hrest : (leadingOperator? isConcatOp rest).isSome
        · simp [hconcat, hrest, hlonger hrest, concatError, hsign]
        · simp [hconcat, hrest]
  · have hoperand : outcome (operand inner ts) =
        .error (.unexpectedToken (.operator sign.operator)) := by
      rw [operand_of_signed hsign]
      rfl
    rcases outcome (sumFrom inner first next) with err | ⟨e, rest⟩
    · rfl
    · simp [hoperand, concatError, hsign]

end Spreadsheet.Formula
