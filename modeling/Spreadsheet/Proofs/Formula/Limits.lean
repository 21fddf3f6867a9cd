import Mathlib.Data.List.Infix
import Spreadsheet.Formula.Parser
import Spreadsheet.Proofs.Formula.Tokens

/-!
# The limits on a formula

The parser counts open parentheses and operators in one pass before it reads. On the tokens of a
tree, where no parenthesis is closed before it is opened, that pass finds what the limits say about
the list as a whole.

Results:
* `WithinLimits`: how many parentheses are open after each part of a list, and how many operators
  and opening parentheses there are in all of it.
* `checkLimits_tokens`: the tokens of a tree pass the check exactly when they are within the limits.
* `depth_le_of_withinLimits`: the tree is then nested no deeper than the limit on parentheses.
-/

namespace Spreadsheet.Formula

/-- The token counts as an operator: it is one, or an opening parenthesis. -/
def Token.isCounted : Token → Bool
  | operator _ | opening => true
  | _ => false

/-- At most `maxOpen` parentheses are open at once, and there are at most `maxOperators` operators
    and opening parentheses. -/
structure WithinLimits (ts : List Token) : Prop where
  open_le : ∀ pre, pre <+: ts → pre.count .opening ≤ pre.count .closing + maxOpen
  operators_le : ts.countP Token.isCounted ≤ maxOperators

/-! ## Beginnings of a list -/

theorem prefix_append_cases {pre ts us : List Token} (h : pre <+: ts ++ us) :
    pre <+: ts ∨ ∃ tail, pre = ts ++ tail ∧ tail <+: us := by
  rcases List.prefix_or_prefix_of_prefix h (List.prefix_append ts us) with hle | ⟨tail, rfl⟩
  · exact Or.inl hle
  · exact Or.inr ⟨tail, rfl, (List.prefix_append_right_inj ts).1 h⟩

/-! ## The check -/

/-- The list is within the limits, counted on from what stands before it. -/
structure FitsAfter (opened operators : Nat) (ts : List Token) : Prop where
  open_le : ∀ pre, pre <+: ts → opened + pre.count .opening ≤ pre.count .closing + maxOpen
  operators_le : operators + ts.countP Token.isCounted ≤ maxOperators

/-- One token changes the two counts and nothing else. -/
theorem fitsAfter_cons {opened operators : Nat} (hle : opened ≤ maxOpen) {t : Token}
    {ts : List Token} (opened' operators' : Nat)
    (hopened : opened + (if t == .opening then 1 else 0) =
      opened' + if t == .closing then 1 else 0)
    (hoperators : operators' = operators + if t.isCounted then 1 else 0) :
    FitsAfter opened operators (t :: ts) ↔ FitsAfter opened' operators' ts := by
  have hcount : operators + (t :: ts).countP Token.isCounted =
      operators' + ts.countP Token.isCounted := by
    rw [List.countP_cons, hoperators]
    omega
  have hopen (pre : List Token) : opened + (t :: pre).count .opening ≤
        (t :: pre).count .closing + maxOpen ↔
      opened' + pre.count .opening ≤ pre.count .closing + maxOpen := by
    rw [List.count_cons, List.count_cons]
    omega
  constructor
  · rintro ⟨hwithin, hmany⟩
    exact ⟨fun pre hpre => (hopen pre).1 (hwithin _ (List.cons_prefix_cons.2 ⟨rfl, hpre⟩)),
      hcount ▸ hmany⟩
  · rintro ⟨hwithin, hmany⟩
    refine ⟨fun pre hpre => ?_, hcount ▸ hmany⟩
    rcases List.prefix_cons_iff.1 hpre with rfl | ⟨tail, rfl, htail⟩
    · simpa using hle
    · exact (hopen tail).2 (hwithin tail htail)

theorem FitsAfter.le {opened operators : Nat} {ts : List Token}
    (h : FitsAfter opened operators ts) : opened ≤ maxOpen ∧ operators ≤ maxOperators := by
  have hopen := h.open_le [] List.nil_prefix
  have hmany := h.operators_le
  simp only [List.count_nil] at hopen
  omega

/-- What the check finds in a list that closes no more parentheses than are open. -/
theorem checkLimits_eq_ok_iff {opened operators : Nat} {ts : List Token}
    (hopened : opened ≤ maxOpen) (hoperators : operators ≤ maxOperators)
    (hclosed : ∀ pre, pre <+: ts → pre.count .closing ≤ opened + pre.count .opening) :
    checkLimits opened operators ts = .ok () ↔ FitsAfter opened operators ts := by
  induction ts generalizing opened operators with
  | nil =>
    refine iff_of_true rfl ⟨?_, by simpa using hoperators⟩
    intro pre hpre
    rw [List.prefix_nil.1 hpre]
    simpa using hopened
  | cons t ts ih =>
    have htail : ∀ pre, pre <+: ts →
        (t :: pre).count .closing ≤ opened + (t :: pre).count .opening :=
      fun pre hpre => hclosed _ (List.cons_prefix_cons.2 ⟨rfl, hpre⟩)
    simp only [List.count_cons] at htail
    cases t with
    | opening =>
      rw [fitsAfter_cons hopened (opened + 1) (operators + 1) rfl rfl, checkLimits]
      split
      · rename_i hfull
        exact iff_of_false (by simp) fun h => by have := h.le; omega
      · split
        · rename_i hmany
          exact iff_of_false (by simp) fun h => by have := h.le; omega
        · refine ih (by omega) (by omega) fun pre hpre => ?_
          have hle := htail pre hpre
          simp only [beq_self_eq_true, if_true, reduceCtorEq, beq_iff_eq, if_false] at hle
          omega
    | closing =>
      have hpos : 1 ≤ opened := by simpa using htail [] List.nil_prefix
      rw [fitsAfter_cons hopened (opened - 1) operators (by simp; omega) rfl, checkLimits]
      refine ih (by omega) hoperators fun pre hpre => ?_
      have hle := htail pre hpre
      simp only [beq_self_eq_true, if_true, reduceCtorEq, beq_iff_eq, if_false] at hle
      omega
    | operator op =>
      rw [fitsAfter_cons hopened opened (operators + 1) rfl rfl, checkLimits]
      split
      · rename_i hmany
        exact iff_of_false (by simp) fun h => by have := h.le; omega
      · exact ih hopened (by omega) fun pre hpre => by simpa using htail pre hpre
    | _ =>
      rw [fitsAfter_cons hopened opened operators rfl rfl]
      exact ih hopened hoperators fun pre hpre => by simpa using htail pre hpre

/-! ## The parentheses of a tree -/

/-- No part of the list from its start closes more parentheses than it opens, and in all of it they
    are as many. -/
structure Balanced (ts : List Token) : Prop where
  closing_le : ∀ pre, pre <+: ts → pre.count .closing ≤ pre.count .opening
  settled : ts.count .closing = ts.count .opening

theorem balanced_of_not_mem {ts : List Token} (hopening : .opening ∉ ts)
    (hclosing : .closing ∉ ts) : Balanced ts := by
  constructor
  · intro pre hpre
    rw [List.count_eq_zero.2 fun hmem => hclosing (hpre.subset hmem)]
    exact Nat.zero_le _
  · rw [List.count_eq_zero.2 hopening, List.count_eq_zero.2 hclosing]

theorem balanced_operator (op : Operator) : Balanced [.operator op] :=
  balanced_of_not_mem (by simp) (by simp)

theorem Balanced.append {ts us : List Token} (hts : Balanced ts) (hus : Balanced us) :
    Balanced (ts ++ us) := by
  constructor
  · intro pre hpre
    rcases prefix_append_cases hpre with hpre | ⟨tail, rfl, htail⟩
    · exact hts.closing_le pre hpre
    · have hle := hus.closing_le tail htail
      rw [List.count_append, List.count_append, hts.settled]
      omega
  · rw [List.count_append, List.count_append, hts.settled, hus.settled]

theorem Balanced.group {ts : List Token} (h : Balanced ts) :
    Balanced (.opening :: ts ++ [.closing]) := by
  constructor
  · intro pre hpre
    rcases prefix_append_cases hpre with hpre | ⟨tail, rfl, htail⟩
    · rcases List.prefix_cons_iff.1 hpre with rfl | ⟨tail, rfl, htail⟩
      · exact Nat.le_refl _
      · have hle := h.closing_le tail htail
        simp only [List.count_cons_self, List.count_cons_of_ne, ne_eq, reduceCtorEq,
          not_false_eq_true]
        omega
    · have hle := htail.sublist.count_le .closing
      have hsettled := h.settled
      simp only [List.count_append, List.count_cons_self, List.count_cons_of_ne, ne_eq,
        reduceCtorEq, not_false_eq_true, List.count_nil] at hle ⊢
      omega
  · simp [h.settled]

theorem balanced_tokens (e : Expr) : Balanced e.tokens := by
  induction e with
  | ref r =>
    obtain ⟨_ | sheet, address⟩ := r <;>
      exact balanced_of_not_mem (by simp [Expr.tokens, Reference.tokens])
        (by simp [Expr.tokens, Reference.tokens])
  | signed sign operand ih =>
    exact (balanced_operator _).append ih
  | binary op left right ihl ihr =>
    exact ihl.append ((balanced_operator op).append ihr)
  | group inner ih => exact ih.group
  | _ => exact balanced_of_not_mem (by simp [Expr.tokens]) (by simp [Expr.tokens])

/-- The most parentheses of a tree that stand inside each other. -/
def Expr.depth : Expr → Nat
  | number _ _ | text _ | error _ | ref _ => 0
  | signed _ operand => operand.depth
  | binary _ left right => max left.depth right.depth
  | group inner => inner.depth + 1

/-- Somewhere in its tokens as many parentheses are open as the tree is deep. -/
theorem exists_prefix_depth (e : Expr) :
    ∃ pre, pre <+: e.tokens ∧ pre.count .opening = pre.count .closing + e.depth := by
  induction e with
  | signed sign operand ih =>
    obtain ⟨pre, hpre, hcount⟩ := ih
    exact ⟨.operator sign.operator :: pre, by simpa [Expr.tokens] using hpre,
      by simpa [Expr.depth] using hcount⟩
  | binary op left right ihl ihr =>
    rcases Nat.le_total right.depth left.depth with hle | hle
    · obtain ⟨pre, hpre, hcount⟩ := ihl
      exact ⟨pre, hpre.trans (List.prefix_append _ _), by rw [hcount, Expr.depth, max_eq_left hle]⟩
    · obtain ⟨pre, hpre, hcount⟩ := ihr
      have hsettled := (balanced_tokens left).settled
      refine ⟨left.tokens ++ .operator op :: pre, by simpa [Expr.tokens] using hpre, ?_⟩
      simp only [Expr.depth, max_eq_right hle, List.count_append, List.count_cons_of_ne, ne_eq,
        reduceCtorEq, not_false_eq_true]
      omega
  | group inner ih =>
    obtain ⟨pre, hpre, hcount⟩ := ih
    refine ⟨.opening :: pre, ?_, ?_⟩
    · exact (List.cons_prefix_cons.2 ⟨rfl, hpre⟩).trans (List.prefix_append _ _)
    · simp only [Expr.depth, List.count_cons_self, List.count_cons_of_ne, ne_eq, reduceCtorEq,
        not_false_eq_true]
      omega
  | _ => exact ⟨[], List.nil_prefix, rfl⟩

/-! ## The limits of a tree -/

/-- The tokens of a tree pass the check exactly when they are within the limits. -/
theorem checkLimits_tokens (e : Expr) :
    checkLimits 0 0 e.tokens = .ok () ↔ WithinLimits e.tokens := by
  have hclosed := (balanced_tokens e).closing_le
  rw [checkLimits_eq_ok_iff (Nat.zero_le _) (Nat.zero_le _) (by simpa using hclosed)]
  constructor
  · rintro ⟨hopen, hmany⟩
    exact ⟨by simpa using hopen, by simpa using hmany⟩
  · rintro ⟨hopen, hmany⟩
    exact ⟨by simpa using hopen, by simpa using hmany⟩

/-- A tree within the limits is nested no deeper than they allow. -/
theorem depth_le_of_withinLimits {e : Expr} (h : WithinLimits e.tokens) : e.depth ≤ maxOpen := by
  obtain ⟨pre, hpre, hcount⟩ := exists_prefix_depth e
  have hle := h.open_le pre hpre
  omega

end Spreadsheet.Formula
