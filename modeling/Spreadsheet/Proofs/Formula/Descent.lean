import Spreadsheet.Proofs.Formula.Calls
import Spreadsheet.Proofs.Formula.Lookahead

/-!
# Recursive descent

The grammar as it would be written down at first: every nonterminal is a function, and what stands
in parentheses is read in a call of `expression` inside another one. The check of the limits is made
before, on a list that need not be well-formed, where parentheses may be closed that were never
opened. It still bounds the calls inside each other: between the parentheses that are open there are
only whole trees, and these close what they open.

Results:
* `Descent.expression`: the grammar in runs that count their calls.
* `Admitted`, `Admitted.of_append`: what the check leaves to be read, also behind a tree.
* `Descends`: a run has the outcome of a reader and few calls inside each other.
* `descends_expression`, `descent_of_checkLimits`: accepted tokens have such a run.
-/

namespace Spreadsheet.Formula

/-! ## The grammar -/

/-- The chains of the grammar. -/
inductive ChainKind where
  | product
  | sum
  | concatenation

/-- The operators that go on with a chain. -/
def ChainKind.accepts : ChainKind → Operator → Bool
  | product => isProductOp
  | sum => isSumOp
  | concatenation => isConcatOp

namespace Descent

theorem shorter {ts next rest : List Token} (h : next.length < ts.length)
    (h' : rest.length < next.length + 1) : rest.length < ts.length :=
  (Nat.le_of_lt_succ h').trans_lt h

mutual

/-- An expression. If `&` follows a sum, the sum has to be an operand: that is read again. -/
def expression (ts : List Token) : Counted ParseError (Found Token Expr ts.length) :=
  .call do
    let ⟨e, next, h⟩ ← sum ts
    if (leadingOperator? isConcatOp next).isSome then
      let ⟨first, afterFirst, _⟩ ← operand ts
      if afterFirst.length = next.length then
        let ⟨e, rest, h'⟩ ← chain .concatenation first next
        return ⟨e, rest, shorter h h'⟩
      else .fail .concatMixed
    else return ⟨e, next, h⟩
termination_by (ts.length, 5)

def sum (ts : List Token) : Counted ParseError (Found Token Expr ts.length) := do
  let ⟨first, next, h⟩ ← product ts
  let ⟨e, rest, h'⟩ ← chain .sum first next
  return ⟨e, rest, shorter h h'⟩
termination_by (ts.length, 3)

def product (ts : List Token) : Counted ParseError (Found Token Expr ts.length) := do
  let ⟨first, next, h⟩ ← factor ts
  let ⟨e, rest, h'⟩ ← chain .product first next
  return ⟨e, rest, shorter h h'⟩
termination_by (ts.length, 2)

/-- The loop of a chain, with the tree of what has been read. -/
def chain (c : ChainKind) (left : Expr) (ts : List Token) :
    Counted ParseError (Found Token Expr (ts.length + 1)) :=
  match ts with
  | [] => return ⟨left, [], by simp⟩
  | t :: tokens =>
    match leadingOperator? c.accepts (t :: tokens) with
    | none => return ⟨left, t :: tokens, by simp⟩
    | some op => do
      let ⟨right, next, h⟩ ← item c tokens
      let ⟨e, rest, h'⟩ ← chain c (.binary op left right) next
      return ⟨e, rest, by simp only [List.length_cons]; omega⟩
termination_by (ts.length, 0)

/-- What a chain joins. -/
def item (c : ChainKind) (ts : List Token) : Counted ParseError (Found Token Expr ts.length) :=
  match c with
  | .product => factor ts
  | .sum => product ts
  | .concatenation => operand ts
termination_by (ts.length, 4)

def factor (ts : List Token) : Counted ParseError (Found Token Expr ts.length) :=
  match ts with
  | [] => operand []
  | t :: tokens =>
    match leadingSign? (t :: tokens) with
    | none => operand (t :: tokens)
    | some sign => do
      let ⟨e, rest, h⟩ ← operand tokens
      return ⟨.signed sign e, rest, by simp only [List.length_cons]; omega⟩
termination_by (ts.length, 1)

def operand (ts : List Token) : Counted ParseError (Found Token Expr ts.length) :=
  match ts with
  | [] => .fail .unexpectedEnd
  | .number text :: rest =>
    match Decimal.ofText? text with
    | some value => return ⟨.number text value, rest, by simp⟩
    | none => .fail (.numberOutOfRange text)
  | .text s :: rest => return ⟨.text s, rest, by simp⟩
  | .error kind :: rest => return ⟨.error kind, rest, by simp⟩
  | .cell address :: rest => return ⟨.ref ⟨none, address⟩, rest, by simp⟩
  | .sheet name :: .cell address :: rest =>
    return ⟨.ref ⟨some name, address⟩, rest, by simp only [List.length_cons]; omega⟩
  | .sheet name :: _ => .fail (.cellExpected name.name)
  | .opening :: tokens => do
    match ← expression tokens with
    | ⟨e, .closing :: rest, h⟩ =>
      return ⟨.group e, rest, by simp only [List.length_cons] at h ⊢; omega⟩
    | _ => .fail .closingExpected
  | t :: _ => .fail (.unexpectedToken t)
termination_by (ts.length, 0)

end

end Descent

/-! ## What the check leaves to be read -/

/-- With so many parentheses open, the check accepts the tokens. -/
structure Admitted (opened : Nat) (ts : List Token) : Prop where
  opened_le : opened ≤ maxOpen
  accepted : ∃ operators, checkLimits opened operators ts = .ok ()

namespace Admitted

variable {opened : Nat} {ts : List Token}

theorem of_opening (h : Admitted opened (.opening :: ts)) : Admitted (opened + 1) ts := by
  obtain ⟨-, operators, haccepted⟩ := h
  rw [checkLimits] at haccepted
  split at haccepted
  · simp at haccepted
  · split at haccepted
    · simp at haccepted
    · exact ⟨by omega, _, haccepted⟩

theorem of_closing (h : Admitted (opened + 1) (.closing :: ts)) : Admitted opened ts := by
  obtain ⟨hle, operators, haccepted⟩ := h
  exact ⟨by omega, operators, haccepted⟩

theorem of_other {t : Token} (hopening : t ≠ .opening) (hclosing : t ≠ .closing)
    (h : Admitted opened (t :: ts)) : Admitted opened ts := by
  obtain ⟨hle, operators, haccepted⟩ := h
  refine ⟨hle, ?_⟩
  cases t with
  | opening => exact absurd rfl hopening
  | closing => exact absurd rfl hclosing
  | operator op =>
    rw [checkLimits] at haccepted
    split at haccepted
    · simp at haccepted
    · exact ⟨_, haccepted⟩
  | _ => exact ⟨operators, haccepted⟩

/-- A tree closes what it opens, so after it as many parentheses are open as before. -/
theorem of_append {e : Expr} (h : Admitted opened (e.tokens ++ ts)) : Admitted opened ts := by
  induction e generalizing opened ts with
  | ref r =>
    obtain ⟨_ | sheet, address⟩ := r
    · exact h.of_other (by simp) (by simp)
    · exact (h.of_other (by simp) (by simp)).of_other (by simp) (by simp)
  | signed sign operand ih => exact ih (h.of_other (by simp) (by simp))
  | binary op left right ihl ihr =>
    rw [Expr.tokens, List.append_assoc] at h
    exact ihr ((ihl h).of_other (by simp) (by simp))
  | group inner ih =>
    have hinner : Admitted (opened + 1) (inner.tokens ++ .closing :: ts) := by
      apply of_opening
      simpa [Expr.tokens] using h
    exact (ih hinner).of_closing
  | _ => exact h.of_other (by simp) (by simp)

end Admitted

/-! ## Few calls -/

/-- The run has this outcome, and at most `n` of its calls are open at once. -/
structure Descends (n : Nat) {bound : Nat} (run : Counted ParseError (Found Token Expr bound))
    (expected : Except ParseError (Expr × List Token)) : Prop where
  calls_le : run.calls ≤ n
  outcome_eq : outcome run.result = expected

namespace Descends

variable {n bound bound' : Nat}

theorem fail (e : ParseError) :
    Descends n (.fail e : Counted ParseError (Found Token Expr bound)) (.error e) :=
  ⟨Nat.zero_le n, rfl⟩

theorem pure {e : Expr} {rest : List Token} (h : rest.length < bound) :
    Descends n (pure ⟨e, rest, h⟩) (.ok (e, rest)) :=
  ⟨Nat.zero_le n, rfl⟩

theorem bind {run : Counted ParseError (Found Token Expr bound)}
    {expected : Except ParseError (Expr × List Token)}
    {f : Found Token Expr bound → Counted ParseError (Found Token Expr bound')}
    {g : Expr × List Token → Except ParseError (Expr × List Token)}
    (hrun : Descends n run expected)
    (hf : ∀ e rest h, expected = .ok (e, rest) → Descends n (f ⟨e, rest, h⟩) (g (e, rest))) :
    Descends n (run >>= f) (expected >>= g) := by
  obtain ⟨result, calls⟩ := run
  obtain ⟨hcalls, rfl⟩ := hrun
  rcases result with err | ⟨e, rest, h⟩
  · exact ⟨hcalls, rfl⟩
  · obtain ⟨hnext, heq⟩ := hf e rest h rfl
    exact ⟨max_le hcalls hnext, heq⟩

/-- A run that only proves another bound in the end. -/
theorem widen {run : Counted ParseError (Found Token Expr bound)}
    {expected : Except ParseError (Expr × List Token)}
    {f : Found Token Expr bound → Counted ParseError (Found Token Expr bound')}
    (hrun : Descends n run expected)
    (hf : ∀ e rest h, ∃ h', f ⟨e, rest, h⟩ = Pure.pure ⟨e, rest, h'⟩) :
    Descends n (run >>= f) expected := by
  rw [← bind_pure expected]
  refine hrun.bind fun e rest h _ => ?_
  obtain ⟨h', heq⟩ := hf e rest h
  rw [heq]
  exact .pure h'

theorem call {run : Counted ParseError (Found Token Expr bound)}
    {expected : Except ParseError (Expr × List Token)} (h : Descends n run expected) :
    Descends (n + 1) run.call expected :=
  ⟨Nat.succ_le_succ h.calls_le, h.outcome_eq⟩

end Descends

/-- The reader of the items of a chain. -/
def ChainKind.item (inner : ExprReader) : ChainKind → ExprReader
  | product => factor inner
  | sum => Formula.product inner
  | concatenation => operand inner

section Descent

variable {n opened : Nat}

/-- A chain, if its items are read as they should. -/
theorem descends_chain {c : ChainKind} (hitem : ∀ ts, Admitted opened ts →
      Descends n (Descent.item c ts) (outcome (c.item (expression n) ts)))
    (hfaithful : Faithful id (c.item (expression n))) {left : Expr} {ts : List Token}
    (h : Admitted opened ts) :
    Descends n (Descent.chain c left ts)
      (outcome (chainFrom (c.item (expression n)) c.accepts left ts)) := by
  cases ts with
  | nil =>
    rw [Descent.chain, chainFrom]
    exact .pure _
  | cons t tokens =>
    rw [Descent.chain]
    split
    · rename_i hnone
      rw [outcome_chainFrom_done hnone]
      exact .pure _
    · rename_i op hop
      rw [outcome_chainFrom_step left hop]
      rw [eq_of_leadingOperator? hop] at h
      have htokens := h.of_other (by simp) (by simp)
      refine (hitem tokens htokens).bind fun right next hlt hright => ?_
      rw [(hfaithful _ _ _ hright).1] at htokens
      exact (descends_chain hitem hfaithful htokens.of_append).widen fun _ _ _ => ⟨_, rfl⟩
termination_by ts.length
decreasing_by
  subst_vars
  exact Nat.lt_succ_of_lt hlt

variable (hinner : ∀ ts, Admitted (opened + 1) ts →
    Descends n (Descent.expression ts) (outcome (expression n ts)))
include hinner

theorem descends_operand {ts : List Token} (h : Admitted opened ts) :
    Descends n (Descent.operand ts) (outcome (operand (expression n) ts)) := by
  cases ts with
  | nil =>
    rw [Descent.operand]
    exact .fail _
  | cons t tokens =>
    cases t with
    | opening =>
      rw [Descent.operand, outcome_operand_opening]
      refine (hinner tokens h.of_opening).bind fun e rest _ _ => ?_
      rcases rest with _ | ⟨t, rest⟩
      · exact .fail _
      · cases t with
        | closing => exact .pure _
        | _ => exact .fail _
    | number text =>
      rw [Descent.operand, operand]
      rcases Decimal.ofText? text with _ | value
      · exact .fail _
      · exact .pure _
    | sheet name =>
      rcases tokens with _ | ⟨t, tokens⟩
      · unfold Descent.operand
        exact .fail _
      · cases t with
        | cell address =>
          unfold Descent.operand
          exact .pure _
        | _ =>
          unfold Descent.operand
          exact .fail _
    | operator _ | closing =>
      unfold Descent.operand
      exact .fail _
    | _ =>
      unfold Descent.operand
      exact .pure _

theorem descends_factor {ts : List Token} (h : Admitted opened ts) :
    Descends n (Descent.factor ts) (outcome (factor (expression n) ts)) := by
  cases ts with
  | nil =>
    rw [Descent.factor]
    exact descends_operand hinner h
  | cons t tokens =>
    rw [Descent.factor]
    split
    · rename_i hsign
      rw [factor_of_not_signed hsign]
      exact descends_operand hinner h
    · rename_i sign hsign
      rw [outcome_factor_signed hsign]
      rw [eq_of_leadingSign? hsign] at h
      exact (descends_operand hinner (h.of_other (by simp) (by simp))).bind
        fun _ _ _ _ => .pure _

theorem descends_product {ts : List Token} (h : Admitted opened ts) :
    Descends n (Descent.product ts) (outcome (product (expression n) ts)) := by
  have hitem (tokens : List Token) (htokens : Admitted opened tokens) :
      Descends n (Descent.item .product tokens) (outcome (factor (expression n) tokens)) := by
    rw [Descent.item]
    exact descends_factor hinner htokens
  have hfaithful := faithful_factor (faithful_expression (f := id) n)
  rw [Descent.product, outcome_product]
  refine (descends_factor hinner h).bind fun first next _ hfirst => ?_
  rw [(hfaithful _ _ _ hfirst).1] at h
  exact (descends_chain (c := .product) hitem hfaithful h.of_append).widen fun _ _ _ => ⟨_, rfl⟩

theorem descends_sum {ts : List Token} (h : Admitted opened ts) :
    Descends n (Descent.sum ts) (sumOf (expression n) ts) := by
  have hitem (tokens : List Token) (htokens : Admitted opened tokens) :
      Descends n (Descent.item .sum tokens) (outcome (product (expression n) tokens)) := by
    rw [Descent.item]
    exact descends_product hinner htokens
  have hfaithful := faithful_product (faithful_expression (f := id) n)
  rw [Descent.sum, sumOf]
  refine (descends_product hinner h).bind fun left next _ hleft => ?_
  rw [(hfaithful _ _ _ hleft).1] at h
  exact (descends_chain (c := .sum) hitem hfaithful h.of_append).widen fun _ _ _ => ⟨_, rfl⟩

theorem descends_step {ts : List Token} (h : Admitted opened ts) :
    Descends (n + 1) (Descent.expression ts) (outcome (expression (n + 1) ts)) := by
  have hitem (tokens : List Token) (htokens : Admitted opened tokens) :
      Descends n (Descent.item .concatenation tokens)
        (outcome (operand (expression n) tokens)) := by
    rw [Descent.item]
    exact descends_operand hinner htokens
  have hfaithful := faithful_operand (faithful_expression (f := id) n)
  rw [Descent.expression, expression, outcome_expressionWith_eq (faithful_expression n)]
  refine ((descends_sum hinner h).bind fun e next _ hsum => ?_).call
  have hnext := (tokens_of_sumOf (faithful_expression n) hsum ▸ h).of_append
  dsimp only
  split
  · refine (descends_operand hinner h).bind fun first afterFirst _ _ => ?_
    dsimp only
    split
    · exact (descends_chain (c := .concatenation) hitem hfaithful hnext).widen
        fun _ _ _ => ⟨_, rfl⟩
    · exact .fail _
  · exact .pure _

end Descent

/-- With `opened` parentheses open, a list that the check accepts is read with at most one call more
    than parentheses that may still be opened. -/
theorem descends_expression {n opened : Nat} (hn : opened + n = maxOpen) {ts : List Token}
    (h : Admitted opened ts) :
    Descends (n + 1) (Descent.expression ts) (outcome (expression (n + 1) ts)) := by
  induction n generalizing opened ts with
  | zero =>
    refine descends_step (fun tokens htokens => ?_) h
    have hle := htokens.opened_le
    omega
  | succ n ih => exact descends_step (fun tokens htokens => ih (by omega) htokens) h

/-- Tokens that the check accepts are read with few calls inside each other, and as the parser
    reads them. -/
theorem descent_of_checkLimits {ts : List Token} (h : checkLimits 0 0 ts = .ok ()) :
    (Descent.expression ts).calls ≤ maxOpen + 1 ∧
      (Descent.expression ts).result = expression (maxOpen + 1) ts := by
  obtain ⟨hcalls, heq⟩ := descends_expression (Nat.zero_add maxOpen) ⟨Nat.zero_le _, 0, h⟩
  exact ⟨hcalls, outcome_injective heq⟩

end Spreadsheet.Formula
