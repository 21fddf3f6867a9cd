import Spreadsheet.Formula.Parser

/-!
# What the readers of the parser read

Each reader is described once, by everything it can take off a token list when it succeeds. The
other modules argue from these descriptions and never open a reader.

* `outcome` forgets the bound that a reader proves, and keeps the tree and the tokens after it.
* `OperandRead` and `ChainRead` say what an operand and the rest of a chain are.
* One lemma a reader, `…_eq_ok_iff`, says when it succeeds and with what.
-/

namespace Spreadsheet.Formula

/-- What a reader gives: the tree and the tokens after it. -/
def outcome {bound : Nat} (x : Except ParseError (Found Token Expr bound)) :
    Except ParseError (Expr × List Token) :=
  x.map fun found => (found.value, found.rest)

theorem outcome_eq_ok_iff {bound : Nat} {x : Except ParseError (Found Token Expr bound)} {e : Expr}
    {rest : List Token} : outcome x = .ok (e, rest) ↔ ∃ h, x = .ok ⟨e, rest, h⟩ := by
  rcases x with err | ⟨value, tokens, hlt⟩
  · simp [outcome, Except.map]
  · simp only [outcome, Except.map, Except.ok.injEq, Prod.mk.injEq, Found.mk.injEq]
    constructor
    · rintro ⟨rfl, rfl⟩
      exact ⟨hlt, rfl, rfl⟩
    · rintro ⟨-, rfl, rfl⟩
      exact ⟨rfl, rfl⟩

theorem outcome_injective {bound : Nat} : Function.Injective (@outcome bound) := by
  intro x y heq
  rcases y with err | ⟨e, rest, h⟩
  · rcases x with err' | found
    · exact congrArg Except.error (Except.error.inj heq)
    · cases heq
  · obtain ⟨_, rfl⟩ := outcome_eq_ok_iff.1 heq
    rfl

theorem found_inj {bound : Nat} {e e' : Expr} {rest rest' : List Token} {h : rest.length < bound}
    {h' : rest'.length < bound}
    (heq : (.ok ⟨e, rest, h⟩ : Except ParseError (Found Token Expr bound)) = .ok ⟨e', rest', h'⟩) :
    e = e' ∧ rest = rest' := by
  simpa only [Except.ok.injEq, Found.mk.injEq] using heq

/-! ## The front of a token list -/

theorem eq_of_leadingSign? {t : Token} {ts : List Token} {sign : Sign}
    (h : leadingSign? (t :: ts) = some sign) : t = .operator sign.operator := by
  cases t with
  | operator op => cases op <;> simp [leadingSign?, Operator.sign?] at h <;> rw [← h] <;> rfl
  | _ => simp [leadingSign?] at h

theorem eq_of_leadingOperator? {accepts : Operator → Bool} {t : Token} {ts : List Token}
    {op : Operator} (h : leadingOperator? accepts (t :: ts) = some op) : t = .operator op := by
  cases t with
  | operator op' =>
    simp only [leadingOperator?] at h
    split at h
    · rw [Option.some.inj h]
    · simp at h
  | _ => simp [leadingOperator?] at h

theorem leadingSign?_operator (sign : Sign) (ts : List Token) :
    leadingSign? (.operator sign.operator :: ts) = some sign := by
  cases sign <;> rfl

theorem leadingOperator?_of_accepts {accepts : Operator → Bool} {op : Operator} (h : accepts op)
    (ts : List Token) : leadingOperator? accepts (.operator op :: ts) = some op := by
  simp [leadingOperator?, h]

theorem accepts_of_leadingOperator? {accepts : Operator → Bool} {ts : List Token} {op : Operator}
    (h : leadingOperator? accepts ts = some op) : accepts op := by
  unfold leadingOperator? at h
  split at h
  · split at h
    · rename_i haccepts
      rwa [← Option.some.inj h]
    · simp at h
  · simp at h

/-! ## Operands -/

/-- An operand at the front of a token list, its tree and the tokens after it; `inner` reads what
    stands in parentheses. -/
inductive OperandRead (inner : ExprReader) : List Token → Expr → List Token → Prop
  | number {text : String} {value : Decimal} (h : Decimal.ofText? text = some value)
      (rest : List Token) : OperandRead inner (.number text :: rest) (.number text value) rest
  | text (s : String) (rest : List Token) : OperandRead inner (.text s :: rest) (.text s) rest
  | error (kind : ErrorKind) (rest : List Token) :
      OperandRead inner (.error kind :: rest) (.error kind) rest
  | cell (address : String) (rest : List Token) :
      OperandRead inner (.cell address :: rest) (.ref ⟨none, address⟩) rest
  | qualified (sheet : SheetName) (address : String) (rest : List Token) :
      OperandRead inner (.sheet sheet :: .cell address :: rest) (.ref ⟨some sheet, address⟩) rest
  | group {tokens rest : List Token} {e : Expr}
      (h : outcome (inner tokens) = .ok (e, .closing :: rest)) :
      OperandRead inner (.opening :: tokens) (.group e) rest

variable {inner item : ExprReader} {accepts : Operator → Bool}
variable {ts rest : List Token} {e first left : Expr}

theorem operand_eq_ok_iff :
    outcome (operand inner ts) = .ok (e, rest) ↔ OperandRead inner ts e rest := by
  constructor
  · intro hread
    obtain ⟨h, hread⟩ := outcome_eq_ok_iff.1 hread
    unfold operand at hread
    split at hread
    · simp at hread
    · split at hread
      · rename_i hvalue
        obtain ⟨rfl, rfl⟩ := found_inj hread
        exact .number hvalue _
      · simp at hread
    · obtain ⟨rfl, rfl⟩ := found_inj hread
      exact .text _ _
    · obtain ⟨rfl, rfl⟩ := found_inj hread
      exact .error _ _
    · obtain ⟨rfl, rfl⟩ := found_inj hread
      exact .cell _ _
    · obtain ⟨rfl, rfl⟩ := found_inj hread
      exact .qualified _ _ _
    · simp at hread
    · split at hread
      · simp at hread
      · rename_i hinner
        obtain ⟨rfl, rfl⟩ := found_inj hread
        exact .group (outcome_eq_ok_iff.2 ⟨_, hinner⟩)
      · simp at hread
    · simp at hread
  · intro hread
    cases hread with
    | number h rest =>
      simp only [operand, h]
      rfl
    | group h =>
      obtain ⟨_, hinner⟩ := outcome_eq_ok_iff.1 h
      simp only [operand, hinner]
      rfl
    | _ => rfl

/-- An operand does not start with a sign. -/
theorem OperandRead.leadingSign?_eq (h : OperandRead inner ts e rest) :
    leadingSign? ts = none := by
  cases h <;> rfl

theorem factor_eq_ok_iff :
    outcome (factor inner ts) = .ok (e, rest) ↔ OperandRead inner ts e rest ∨
      ∃ sign tokens operand, ts = .operator sign.operator :: tokens ∧ e = .signed sign operand ∧
        OperandRead inner tokens operand rest := by
  constructor
  · intro hread
    obtain ⟨h, hfactor⟩ := outcome_eq_ok_iff.1 hread
    unfold factor at hfactor
    split at hfactor
    · exact Or.inl (operand_eq_ok_iff.1 hread)
    · split at hfactor
      · exact Or.inl (operand_eq_ok_iff.1 (outcome_eq_ok_iff.2 ⟨_, hfactor⟩))
      · rename_i sign hsign
        split at hfactor
        · simp at hfactor
        · rename_i hoperand
          obtain ⟨rfl, rfl⟩ := found_inj hfactor
          exact Or.inr ⟨sign, _, _, by rw [eq_of_leadingSign? hsign], rfl,
            operand_eq_ok_iff.1 (outcome_eq_ok_iff.2 ⟨_, hoperand⟩)⟩
  · rintro (hread | ⟨sign, tokens, e, rfl, rfl, hread⟩)
    · have hsign := hread.leadingSign?_eq
      have hoperand := operand_eq_ok_iff.2 hread
      cases ts with
      | nil => exact hoperand
      | cons t tokens =>
        simp only [factor, hsign]
        exact hoperand
    · obtain ⟨_, hoperand⟩ := outcome_eq_ok_iff.1 (operand_eq_ok_iff.2 hread)
      simp only [factor, leadingSign?_operator, hoperand]
      rfl

/-! ## Chains -/

/-- The rest of a chain after its first item: the tokens, the tree of the whole chain and the tokens
    after it. -/
inductive ChainRead (item : ExprReader) (accepts : Operator → Bool) :
    Expr → List Token → Expr → List Token → Prop
  | done {left : Expr} {ts : List Token} (h : leadingOperator? accepts ts = none) :
      ChainRead item accepts left ts left ts
  | step {left right e : Expr} {op : Operator} {tokens after rest : List Token} (hop : accepts op)
      (hright : outcome (item tokens) = .ok (right, after))
      (h : ChainRead item accepts (.binary op left right) after e rest) :
      ChainRead item accepts left (.operator op :: tokens) e rest

theorem chainFrom_eq_ok_iff :
    outcome (chainFrom item accepts left ts) = .ok (e, rest) ↔
      ChainRead item accepts left ts e rest := by
  constructor
  · intro hread
    induction hn : ts.length using Nat.strongRecOn generalizing left ts with
    | ind n ih =>
      subst hn
      obtain ⟨h, hread⟩ := outcome_eq_ok_iff.1 hread
      cases ts with
      | nil =>
        rw [chainFrom] at hread
        obtain ⟨rfl, rfl⟩ := found_inj hread
        exact .done rfl
      | cons t tokens =>
        rw [chainFrom] at hread
        split at hread
        · rename_i hnone
          obtain ⟨rfl, rfl⟩ := found_inj hread
          exact .done hnone
        · rename_i op hop
          split at hread
          · simp at hread
          · rename_i right after hafter hright
            split at hread
            · simp at hread
            · rename_i hchain
              obtain ⟨rfl, rfl⟩ := found_inj hread
              rw [eq_of_leadingOperator? hop]
              exact .step (accepts_of_leadingOperator? hop) (outcome_eq_ok_iff.2 ⟨_, hright⟩)
                (ih after.length (by simp only [List.length_cons]; omega)
                  (outcome_eq_ok_iff.2 ⟨_, hchain⟩) rfl)
  · intro hread
    induction hread with
    | @done left ts hnone =>
      cases ts with
      | nil =>
        rw [chainFrom]
        rfl
      | cons t tokens =>
        rw [chainFrom]
        simp only [hnone]
        rfl
    | step hop hright _ ih =>
      obtain ⟨_, hright⟩ := outcome_eq_ok_iff.1 hright
      obtain ⟨_, hchain⟩ := outcome_eq_ok_iff.1 ih
      rw [chainFrom]
      simp only [leadingOperator?_of_accepts hop, hright, hchain]
      rfl

theorem product_eq_ok_iff :
    outcome (product inner ts) = .ok (e, rest) ↔
      ∃ first after, outcome (factor inner ts) = .ok (first, after) ∧
        ChainRead (factor inner) isProductOp first after e rest := by
  constructor
  · intro hread
    obtain ⟨h, hread⟩ := outcome_eq_ok_iff.1 hread
    unfold product at hread
    split at hread
    · simp at hread
    · rename_i first after _ hfirst
      split at hread
      · simp at hread
      · rename_i hchain
        obtain ⟨rfl, rfl⟩ := found_inj hread
        exact ⟨first, after, outcome_eq_ok_iff.2 ⟨_, hfirst⟩,
          chainFrom_eq_ok_iff.1 (outcome_eq_ok_iff.2 ⟨_, hchain⟩)⟩
  · rintro ⟨first, after, hfirst, hchain⟩
    obtain ⟨_, hfirst⟩ := outcome_eq_ok_iff.1 hfirst
    obtain ⟨_, hchain⟩ := outcome_eq_ok_iff.1 (chainFrom_eq_ok_iff.2 hchain)
    simp only [product, hfirst, hchain]
    rfl

theorem sumFrom_eq_ok_iff :
    outcome (sumFrom inner first ts) = .ok (e, rest) ↔
      ∃ left after, ChainRead (factor inner) isProductOp first ts left after ∧
        ChainRead (product inner) isSumOp left after e rest := by
  constructor
  · intro hread
    obtain ⟨h, hread⟩ := outcome_eq_ok_iff.1 hread
    unfold sumFrom at hread
    split at hread
    · simp at hread
    · rename_i left after _ hleft
      split at hread
      · simp at hread
      · rename_i hchain
        obtain ⟨rfl, rfl⟩ := found_inj hread
        exact ⟨left, after, chainFrom_eq_ok_iff.1 (outcome_eq_ok_iff.2 ⟨_, hleft⟩),
          chainFrom_eq_ok_iff.1 (outcome_eq_ok_iff.2 ⟨_, hchain⟩)⟩
  · rintro ⟨left, after, hleft, hchain⟩
    obtain ⟨_, hleft⟩ := outcome_eq_ok_iff.1 (chainFrom_eq_ok_iff.2 hleft)
    obtain ⟨_, hchain⟩ := outcome_eq_ok_iff.1 (chainFrom_eq_ok_iff.2 hchain)
    simp only [sumFrom, hleft, hchain]
    rfl

/-! ## Expressions -/

/-- An expression is a concatenation if `&` follows its first operand, and otherwise a sum that `&`
    does not follow. -/
theorem expressionWith_eq_ok_iff :
    outcome (expressionWith inner ts) = .ok (e, rest) ↔
      ∃ first after, outcome (factor inner ts) = .ok (first, after) ∧
        ((leadingSign? ts = none ∧ (leadingOperator? isConcatOp after).isSome ∧
            ChainRead (operand inner) isConcatOp first after e rest) ∨
          (¬ (leadingSign? ts = none ∧ (leadingOperator? isConcatOp after).isSome) ∧
            outcome (sumFrom inner first after) = .ok (e, rest) ∧
            leadingOperator? isConcatOp rest = none)) := by
  constructor
  · intro hread
    obtain ⟨h, hread⟩ := outcome_eq_ok_iff.1 hread
    unfold expressionWith at hread
    split at hread
    · simp at hread
    · rename_i first after _ hfirst
      refine ⟨first, after, outcome_eq_ok_iff.2 ⟨_, hfirst⟩, ?_⟩
      split at hread
      · rename_i hconcat
        simp only [Bool.and_eq_true, Option.isNone_iff_eq_none] at hconcat
        split at hread
        · simp at hread
        · rename_i hchain
          obtain ⟨rfl, rfl⟩ := found_inj hread
          exact Or.inl ⟨hconcat.1, hconcat.2,
            chainFrom_eq_ok_iff.1 (outcome_eq_ok_iff.2 ⟨_, hchain⟩)⟩
      · rename_i hconcat
        simp only [Bool.and_eq_true, Option.isNone_iff_eq_none] at hconcat
        split at hread
        · simp at hread
        · rename_i hsum
          split at hread
          · simp at hread
          · rename_i hend
            obtain ⟨rfl, rfl⟩ := found_inj hread
            exact Or.inr ⟨hconcat, outcome_eq_ok_iff.2 ⟨_, hsum⟩, by simpa using hend⟩
  · rintro ⟨first, after, hfirst, ⟨hsign, hop, hchain⟩ | ⟨hconcat, hsum, hend⟩⟩
    · obtain ⟨_, hfirst⟩ := outcome_eq_ok_iff.1 hfirst
      obtain ⟨_, hchain⟩ := outcome_eq_ok_iff.1 (chainFrom_eq_ok_iff.2 hchain)
      simp only [expressionWith, hfirst, hsign, hop, Option.isNone_none, Bool.and_self, if_true,
        hchain]
      rfl
    · obtain ⟨_, hfirst⟩ := outcome_eq_ok_iff.1 hfirst
      obtain ⟨_, hsum⟩ := outcome_eq_ok_iff.1 hsum
      have hcond : ((leadingSign? ts).isNone && (leadingOperator? isConcatOp after).isSome) =
          false := by
        simpa [← Option.isNone_iff_eq_none] using hconcat
      simp only [expressionWith, hfirst, hcond, hsum, hend]
      rfl

/-! ## Whole token lists -/

theorem parseTokens_eq_ok_iff {ts : List Token} {e : Expr} :
    parseTokens ts = .ok e ↔ ts ≠ [] ∧ checkLimits 0 0 ts = .ok () ∧
      outcome (expression (maxOpen + 1) ts) = .ok (e, []) := by
  rw [outcome_eq_ok_iff]
  unfold parseTokens
  constructor
  · intro h
    split at h
    · simp at h
    · rename_i hne
      split at h
      · simp at h
      · rename_i hlimits
        split at h
        · simp at h
        · rename_i hread
          obtain rfl := Except.ok.inj h
          exact ⟨by simpa using hne, hlimits, _, hread⟩
        · simp at h
  · rintro ⟨hne, hlimits, h, hread⟩
    simp [hne, hlimits, hread]

end Spreadsheet.Formula
