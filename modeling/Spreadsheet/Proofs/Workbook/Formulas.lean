import Spreadsheet.Proofs.Workbook.Entries

/-!
# Formulas of reachable workbooks

What a formula refers to is read off the sheets alone, without registry and graph.

Results:
* `graph_mirrors_formulas`: the edges of the graph are the references of the formulas, and nothing
  that a formula needs is missing from graph and sheets.
* `formula_value_exact`: the value of a formula is the circular error if the formula is on a cycle
  of references, and otherwise what it amounts to over the values as they are.
-/

namespace Spreadsheet.Workbook

open Formula (Expr)

/-! ## References -/

/-- A sheet stores the formula `e` at a key. -/
def Stores (book : Workbook) (key : CellKey) (e : Expr) : Prop :=
  ∃ sheet ∈ book.sheets, upper sheet.name = key.sheet ∧
    (sheet.cell? key.position).bind Cell.expr? = some e

/-- A formula at `key` refers to the cell `source`. -/
def Refers (book : Workbook) (key source : CellKey) : Prop :=
  ∃ e, book.Stores key e ∧ ∃ r ∈ e.references, r.cell? key.sheet = some source

/-- A closed chain of references leads through the formula at a key. -/
def OnReferenceCycle (book : Workbook) (key : CellKey) : Prop :=
  Relation.TransGen book.Refers key key

variable {book : Workbook}

theorem stores_of_cell? {sheet : Sheet} (hmem : sheet ∈ book.sheets) {p : Position}
    {content : String} {e : Expr} {value : Option CellValue}
    (hc : sheet.cell? p = some (.formula content e value)) : book.Stores (.on sheet.name p) e :=
  ⟨sheet, hmem, rfl, by simp [CellKey.on, hc, Cell.expr?]⟩

theorem stores_iff (h : book.Indexed) {key : CellKey} {e : Expr} :
    book.Stores key e ↔ book.formulaAt key = some e := by
  simp only [Stores, formulaAt, Option.bind_eq_some_iff, h.cellAt_eq_some_iff]
  constructor
  · rintro ⟨sheet, hmem, hname, cell, hcell, he⟩
    exact ⟨cell, ⟨sheet, hmem, hname, hcell⟩, he⟩
  · rintro ⟨cell, ⟨sheet, hmem, hname, hcell⟩, he⟩
    exact ⟨sheet, hmem, hname, cell, hcell, he⟩

/-- A formula refers to the cells from which edges lead to it. -/
theorem refers_iff (h : Wired book) {key source : CellKey} :
    book.Refers key source ↔ book.graph.ReadBy source key := by
  rw [DependencyGraph.ReadBy, h.readBy_iff (by simp)]
  constructor
  · rintro ⟨e, he, hsource⟩
    exact (h.mem_readsAt_iff ((stores_iff h.indexed).1 he)).2 hsource
  · intro hsource
    rcases he : book.formulaAt key with _ | e
    · rw [readsAt_eq_nil he] at hsource
      exact absurd hsource List.not_mem_nil
    · exact ⟨e, (stores_iff h.indexed).2 he, (h.mem_readsAt_iff he).1 hsource⟩

/-- The graph has the cycles of the formulas. -/
theorem onCycle_iff (h : Wired book) {key : CellKey} :
    book.graph.OnCycle key ↔ book.OnReferenceCycle key := by
  have hswap : book.Refers = Function.swap book.graph.ReadBy := by
    funext u v
    exact propext (refers_iff h)
  rw [OnReferenceCycle, hswap, Relation.transGen_swap]
  rfl

/-! ## Edges -/

/-- The graph of a reachable workbook holds, for every node, one edge for each reference of its
    formula that means a cell of the grid, and no edge if there is no formula. All stored cells and
    all cells that formulas refer to are nodes, also on sheets that do not exist; all nodes are in
    the grid, and on a sheet that exists they are stored. -/
theorem graph_mirrors_formulas (commands : List Command) :
    let book := after commands
    (∀ key e, book.Stores key e →
      book.graph.sourcesOf key = e.references.filterMap (·.cell? key.sheet)) ∧
    (∀ key, (∀ e, ¬ book.Stores key e) → book.graph.sourcesOf key = 0) ∧
    (∀ sheet ∈ book.sheets, ∀ p cell, sheet.cell? p = some cell →
      .on sheet.name p ∈ book.graph.keys) ∧
    (∀ key source, book.Refers key source → source ∈ book.graph.keys) ∧
    ∀ key ∈ book.graph.keys, key.position.inGrid ∧
      ∀ sheet ∈ book.sheets, upper sheet.name = key.sheet →
        ∃ cell, sheet.cell? key.position = some cell := by
  intro book
  obtain ⟨hw, hsettled⟩ : Valid book := valid_after commands
  have hsources (key : CellKey) : book.graph.sourcesOf key = book.readsAt key :=
    hw.sourcesOf_eq key (by simp)
  refine ⟨?_, ?_, ?_, ?_, ?_⟩
  · intro key e he
    rw [hsources, hw.readsAt_eq_cells ((stores_iff hw.indexed).1 he)]
  · intro key hnone
    have hformula : book.formulaAt key = none := by
      rw [Option.eq_none_iff_forall_ne_some]
      exact fun e he => hnone e ((stores_iff hw.indexed).2 he)
    rw [hsources, readsAt_eq_nil hformula]
    rfl
  · intro sheet hmem p cell hcell
    have hstored : book.cellAt (.on sheet.name p) = some cell := by
      rw [hw.indexed.cellAt_eq hmem rfl]
      exact hcell
    exact hw.node _ (by rw [hstored]; rfl)
  · intro key source hsource
    exact hw.graph.mem_keys_of_readersOf ((refers_iff hw).1 hsource)
  · intro key hkey
    refine ⟨hw.inGrid key hkey, fun sheet hmem hname => ?_⟩
    have hplace := (hsettled key hkey).1 (hasSheet_iff.2 ⟨sheet, hmem, hname⟩)
    rw [hw.indexed.cellAt_eq hmem hname] at hplace
    exact Option.isSome_iff_exists.1 hplace

/-! ## Values -/

/-- In a reachable workbook the value of every formula is exact: the circular error if the formula
    is on a cycle of references, and otherwise what it amounts to over the values as they are. The
    short ways of evaluating it would give the same. -/
theorem formula_value_exact (commands : List Command) {index : Nat} {sheet : Sheet} {p : Position}
    {content : String} {e : Expr} {value : Option CellValue}
    (hs : (after commands).sheets[index]? = some sheet)
    (hc : sheet.cell? p = some (.formula content e value)) :
    let book := after commands
    (book.OnReferenceCycle (.on sheet.name p) → value = some circular) ∧
    (¬ book.OnReferenceCycle (.on sheet.name p) →
      value = some (e.value (book.lookup index)) ∧
        book.formulaValue index (.on sheet.name p) e = e.value (book.lookup index)) := by
  intro book
  have h : Valid book := valid_after commands
  have hi : book.registry[(CellKey.on sheet.name p).sheet]? = some index :=
    (h.wired.indexed _ index).2 ⟨sheet, hs, rfl⟩
  have hcell : book.cellAt (.on sheet.name p) = some (.formula content e value) := by
    rw [h.wired.indexed.cellAt_eq (List.mem_of_getElem? hs) rfl]
    exact hc
  have he : book.formulaAt (.on sheet.name p) = some e :=
    (stores_iff h.wired.indexed).1 (stores_of_cell? (List.mem_of_getElem? hs) hc)
  have hvalue : book.valueAt (.on sheet.name p) = value := by
    rw [valueAt, hcell]
    rfl
  obtain ⟨hcircular, hexact⟩ := h.current _ e he
  rw [onCycle_iff h.wired, hvalue] at hcircular hexact
  rw [← lookup_eq h.wired.indexed hi] at hexact
  refine ⟨hcircular, fun hcycle => ⟨hexact hcycle, ?_⟩⟩
  exact formulaValue_eq h.wired (by simp) hi he (mt (onCycle_iff h.wired).1 hcycle)

/-- A formula that refers to itself is typed into a new workbook. -/
theorem formula_value_exact_self_reference :
    ∃ (index : Nat) (sheet : Sheet) (value : Option CellValue),
      let book := after [.addSheet (some "A"), .write "A" "A1" (some "=A1")]
      book.sheets[index]? = some sheet ∧
      sheet.cell? ⟨0, 0⟩ = some (.formula "=A1" (.ref ⟨none, "A1"⟩) value) ∧
      value = some circular := by
  let commands : List Command := [.addSheet (some "A"), .write "A" "A1" (some "=A1")]
  have hname : nameFault? "A" = none := rfl
  have hlocation : Position.ofLocation "A1" = .ok ⟨0, 0⟩ := rfl
  obtain ⟨-, hentry⟩ := entries_first_write hname hlocation (some "=A1")
  have hcell : (after commands).entryAt (.on "A" ⟨0, 0⟩) =
      .formula "=A1" (.ref ⟨none, "A1"⟩) none := by
    rw [hentry, if_pos rfl]
    with_unfolding_all rfl
  obtain ⟨index, sheet, value, hs, hname, hc⟩ :=
    exists_formula (valid_after commands).wired.indexed hcell
  have hstores := stores_of_cell? (List.mem_of_getElem? hs) hc
  have hrefers : (after commands).Refers (.on sheet.name ⟨0, 0⟩) (.on sheet.name ⟨0, 0⟩) :=
    ⟨_, hstores, ⟨none, "A1"⟩, List.mem_singleton_self _, rfl⟩
  exact ⟨index, sheet, value, hs, hc, (formula_value_exact commands hs hc).1 (.single hrefers)⟩

end Spreadsheet.Workbook
