import Mathlib.Order.Bounds.Basic
import Spreadsheet.Proofs.Workbook.Entries
import Spreadsheet.Proofs.Workbook.SheetHistory

/-!
# Extents are exact

The extent of a sheet is kept up to date by every write and never computed anew. All the same it is
what the cells with content say, after any calls and at every moment on the way.

Results:
* `Sheet.Spans` is what an extent should be, read off the cells; `Sheet.Counted.spans_extent` says
  that it is.
* `Sheet.ExactCounts`: the counts of rows and columns are the numbers of cells with content, and no
  count that is lowered is zero.
* `extent_exact`: both, for every sheet of every reachable workbook.
-/

namespace Spreadsheet

namespace Sheet

variable {s : Sheet}

/-! ## Rows and columns with content -/

/-- A row (or column) counts cells iff a cell with content is in it. -/
theorem countIn_pos_iff {f : Position → Nat} {i : Nat} :
    0 < s.countIn f i ↔ ∃ p, s.hasContent p ∧ f p = i := by
  rw [countIn, List.countP_pos_iff]
  constructor
  · rintro ⟨⟨p, content⟩, hmem, hi⟩
    refine ⟨p, ?_, by simpa using hi⟩
    rw [hasContent, mem_contents_iff.1 hmem]
    rfl
  · rintro ⟨p, hp, hi⟩
    obtain ⟨content, hcontent⟩ := Option.isSome_iff_exists.1 hp
    exact ⟨(p, content), mem_contents_iff.2 hcontent, by simpa using hi⟩

/-- The last row (or column) with content is the greatest one. -/
theorem isGreatest_last {o : Occupancy} {f : Position → Nat} (h : o.Counts (s.countIn f)) {i : Nat}
    (hi : o.last? = some i) : IsGreatest (f '' {p | s.hasContent p}) i := by
  obtain ⟨hpos, hmax⟩ := h.last?_eq_some_iff.1 hi
  refine ⟨countIn_pos_iff.1 hpos, ?_⟩
  rintro _ ⟨p, hp, rfl⟩
  exact hmax (f p) (countIn_pos_iff.2 ⟨p, hp, rfl⟩)

/-- Without a last row (or column) there is no content. -/
theorem not_hasContent_of_last {o : Occupancy} {f : Position → Nat} (h : o.Counts (s.countIn f))
    (hnone : o.last? = none) (p : Position) : ¬ s.hasContent p := by
  intro hp
  have hpos : 0 < s.countIn f (f p) := countIn_pos_iff.2 ⟨p, hp, rfl⟩
  rw [h.last?_eq_none_iff.1 hnone] at hpos
  exact Nat.lt_irrefl 0 hpos

/-! ## Exact sheets -/

/-- The extent reaches to the greatest row and the greatest column with content; without content it
    is zero. -/
def Spans (s : Sheet) (extent : Nat × Nat) : Prop :=
  ((∀ p, ¬ s.hasContent p) ∧ extent = (0, 0)) ∨
    ∃ row col, IsGreatest (Position.row '' {p | s.hasContent p}) row ∧
      IsGreatest (Position.col '' {p | s.hasContent p}) col ∧ extent = (row + 1, col + 1)

/-- The counts are the numbers of cells with content. What is stored as a count is not zero, and a
    cell with content has been counted, so that no count is lowered below zero. -/
structure ExactCounts (s : Sheet) : Prop where
  rows_eq : ∀ i, s.rows.count i = s.countIn Position.row i
  cols_eq : ∀ i, s.cols.count i = s.countIn Position.col i
  rows_pos : ∀ (i n : Nat), s.rows.counts[i]? = some n → 0 < n
  cols_pos : ∀ (i n : Nat), s.cols.counts[i]? = some n → 0 < n
  counted : ∀ p, s.hasContent p → 0 < s.rows.count p.row ∧ 0 < s.cols.count p.col

namespace Counted

variable (h : s.Counted)
include h

theorem spans_extent : s.Spans s.extent := by
  rcases hrow : s.rows.last? with _ | row
  · exact Or.inl ⟨not_hasContent_of_last h.rows hrow, by rw [extent, hrow]⟩
  · rcases hcol : s.cols.last? with _ | col
    · exact Or.inl ⟨not_hasContent_of_last h.cols hcol, by rw [extent, hrow, hcol]⟩
    · exact Or.inr ⟨row, col, isGreatest_last h.rows hrow, isGreatest_last h.cols hcol,
        by rw [extent, hrow, hcol]⟩

theorem exactCounts : s.ExactCounts where
  rows_eq := h.rows.count_eq
  cols_eq := h.cols.count_eq
  rows_pos _ _ := h.rows.pos
  cols_pos _ _ := h.cols.pos
  counted p hp := by
    rw [h.rows.count_eq, h.cols.count_eq]
    exact ⟨countIn_pos_iff.2 ⟨p, hp, rfl⟩, countIn_pos_iff.2 ⟨p, hp, rfl⟩⟩

end Counted

/-- Edits of a sheet keep its counts exact, and so does a new name. -/
theorem invariant_counted : Invariant Counted where
  named := counted_named
  apply sheet edit h := by
    cases edit with
    | write p content => exact h.write p content
    | ensure p => exact h.ensure p
    | evaluated p value => exact h.evaluated p value
    | retitle name => exact ⟨h.rows, h.cols⟩

end Sheet

namespace Workbook

/-! ## Sheets of reachable workbooks -/

/-- A user is told the extent of the sheet with this name. -/
theorem extent_of_hasSheet {book : Workbook} (h : book.Indexed) {name : String}
    (hname : book.HasSheet (upper name)) :
    ∃ sheet ∈ book.sheets, upper sheet.name = upper name ∧
      book.extent name = .ok sheet.extent := by
  obtain ⟨index, sheet, hlocate, hs, hsheet⟩ := locate_of_hasSheet h hname
  refine ⟨sheet, List.mem_of_getElem? hs, hsheet, ?_⟩
  simp only [extent, hlocate, hs, Option.elim_some, bind, Except.bind]
  rfl

/-- The extent that a user is told for a sheet is the one that the contents of its cells give, and
    the counts of its rows and columns are exact. Every sheet has come about by edits, and its
    counts were exact after each of them, so none was ever lowered below zero. -/
theorem extent_exact (commands : List Command) :
    let book := after commands
    (∀ name, book.HasSheet (upper name) →
      ∃ sheet ∈ book.sheets, upper sheet.name = upper name ∧
        book.extent name = .ok sheet.extent) ∧
    (∀ sheet ∈ book.sheets, sheet.Spans sheet.extent ∧ sheet.ExactCounts) ∧
    ∀ sheet ∈ book.sheets, ∃ name edits, sheet = .after name edits ∧
      ∀ earlier, earlier <+: edits → (Sheet.after name earlier).ExactCounts := by
  intro book
  refine ⟨fun name hname => ?_, fun sheet hmem => ?_, fun sheet hmem => ?_⟩
  · exact extent_of_hasSheet (valid_after commands).wired.indexed hname
  · have hcounted := ((valid_after commands).wired.sound sheet hmem).toCounted
    exact ⟨hcounted.spans_extent, hcounted.exactCounts⟩
  · obtain ⟨name, edits, rfl⟩ := exists_history commands sheet hmem
    refine ⟨name, edits, rfl, fun earlier _ => ?_⟩
    exact (Sheet.invariant_counted.after name earlier).exactCounts

end Workbook

end Spreadsheet
