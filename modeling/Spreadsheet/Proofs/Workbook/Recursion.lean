import Spreadsheet.Proofs.Formula.Descent
import Spreadsheet.Proofs.Workbook.Formulas

/-!
# The depth of recursion

The limits on a formula are there for functions that recurse: the parser, and what walks over the
tree of a formula afterwards. A formula that is stored was read from a text, so its tree is within
the limits, and it is so after a sheet was renamed in it.

Results:
* `Shallow`: no walk over a tree has more than so many calls inside each other.
* `recursion_bounded`: the bounds for every list of tokens, every text and every stored formula.
-/

namespace Spreadsheet

open Formula

namespace Formula

/-- The run has this result, and at most `n` of its calls are open at once. -/
structure Counted.Yields {ε α : Type} (x : Counted ε α) (a : α) (n : Nat) : Prop where
  result_eq : x.result = .ok a
  calls_le : x.calls ≤ n

/-- What is done with the tree of a formula takes at most `n` calls inside each other: to evaluate
    it, to print it, to rename a sheet in it and to collect its references. -/
structure Expr.Shallow (e : Expr) (n : Nat) : Prop where
  evaluate : ∀ lookup, ((evaluator lookup).walk e).Yields (e.scalar lookup) n
  print : (printer.walk e).Yields e.print n
  rename : ∀ old new, ((renamer old new).walk e).Yields (e.renameSheet old new) n
  collect : (collector.walk e).Yields e.references n

theorem Fold.Computes.yields {α : Type} {f : Fold α} {g : Expr → α} (h : f.Computes g) {e : Expr}
    {n : Nat} (hn : e.height ≤ n) : (f.walk e).Yields (g e) n := by
  rw [h.walk_eq e]
  exact ⟨rfl, hn⟩

theorem Expr.shallow_of_height_le {e : Expr} {n : Nat} (hn : e.height ≤ n) : e.Shallow n where
  evaluate lookup := (computes_evaluator lookup).yields hn
  print := computes_printer.yields hn
  rename old new := (computes_renamer old new).yields hn
  collect := computes_collector.yields hn

end Formula

namespace Workbook

theorem parsed_of_stores {commands : List Command} {key : CellKey} {e : Expr}
    (h : (after commands).Stores key e) : e.Parsed := by
  have hw := (valid_after commands).wired
  exact hw.parsed ((stores_iff hw.indexed).1 h)

/-- Tokens that the check accepts, well-formed or not, are read with at most 257 calls for
    expressions inside each other, and the outcome is that of the parser. The tree of a text has at
    most 1024 signs, operators and pairs of parentheses and a height of at most 1025, also with a
    sheet renamed in it. So no walk over a formula of a reachable workbook takes more than 1025
    calls inside each other, before a sheet is renamed in it or after. -/
theorem recursion_bounded :
    (∀ ts, checkLimits 0 0 ts = .ok () →
      (Descent.expression ts).calls ≤ 257 ∧
      (Descent.expression ts).result = expression (maxOpen + 1) ts) ∧
    (∀ text e, parse text = .ok e →
      (e.innerNodes ≤ 1024 ∧ e.height ≤ 1025) ∧
      ∀ old new, (e.renameSheet old new).innerNodes ≤ 1024 ∧
        (e.renameSheet old new).height ≤ 1025) ∧
    ∀ commands key e, (after commands).Stores key e →
      e.Shallow 1025 ∧ ∀ old new, (e.renameSheet old new).Shallow 1025 := by
  refine ⟨fun ts h => descent_of_checkLimits h, fun text e h => ?_, fun commands key e h => ?_⟩
  · have hsmall := (parsed_of_parse h).small
    exact ⟨⟨hsmall.innerNodes_le, hsmall.height_le⟩, fun old new =>
      ⟨(hsmall.renameSheet old new).innerNodes_le, (hsmall.renameSheet old new).height_le⟩⟩
  · have hsmall := (parsed_of_stores h).small
    exact ⟨Expr.shallow_of_height_le hsmall.height_le, fun old new =>
      Expr.shallow_of_height_le (hsmall.renameSheet old new).height_le⟩

end Workbook

end Spreadsheet
