import Spreadsheet.Proofs.Workbook.History
import Spreadsheet.Proofs.Workbook.Mirror

/-!
# An edit of a cell is local

A write recalculates the whole workbook, and it may make cycles or break them. All the same it
reaches only the cell that is written and the cells that read it, directly or through others: every
cycle that comes or goes leads through the written cell, and so does every change of a value.

Results:
* `Kept`: what an edit of another cell may do to a cell.
* `AgreeOff.reaches_iff`: the cells that a written cell reaches are the same before and after.
* `write_local`: contents, formulas and references of other cells stay, and so do the values of
  cells that the written cell does not reach.
-/

namespace Spreadsheet

open Formula (Reference Scalar)
open Relation (TransGen)

/-! ## Other cells -/

/-- A cell before and after an edit of another one: what is stored keeps its content, its kind, its
    formula and its references, and a place may be made for a cell that is not stored. -/
inductive Kept : Option Cell → Option Cell → Prop
  | stored {cell cell' : Cell} (content : cell'.content? = cell.content?)
      (kind : cell'.kind = cell.kind) (formula : cell'.expr? = cell.expr?)
      (references : cell'.targets = cell.targets) : Kept (some cell) (some cell')
  | absent : Kept none none
  | place : Kept none (some .blank)

theorem Cell.kind_unevaluated (c : Cell) : c.unevaluated.kind = c.kind := by
  cases c with
  | literal content value => cases value <;> rfl
  | _ => rfl

/-- Cells with the same entry differ at most in the value of a formula. -/
theorem kept_of_unevaluated {cell cell' : Cell} (h : cell'.unevaluated = cell.unevaluated) :
    Kept (some cell) (some cell') := by
  have hexpr : cell'.expr? = cell.expr? := by
    rw [← cell'.expr?_unevaluated, h, cell.expr?_unevaluated]
  refine .stored ?_ ?_ hexpr ?_
  · rw [← cell'.content?_unevaluated, h, cell.content?_unevaluated]
  · rw [← cell'.kind_unevaluated, h, cell.kind_unevaluated]
  · rw [Cell.targets, hexpr, Cell.targets]

namespace Workbook

variable {book book' : Workbook} {x : CellKey}

/-- A cell with the same entry is kept, if what is stored stays stored. -/
theorem kept_of_entryAt {key : CellKey} (hentry : book'.entryAt key = book.entryAt key)
    (hstored : (book.cellAt key).isSome → (book'.cellAt key).isSome) :
    Kept (book.cellAt key) (book'.cellAt key) := by
  rw [entryAt, entryAt] at hentry
  rcases hc : book.cellAt key with _ | cell
  · rcases hc' : book'.cellAt key with _ | cell'
    · exact .absent
    · rw [hc, hc'] at hentry
      cases cell' with
      | blank => exact .place
      | _ => simp [Cell.unevaluated] at hentry
  · rw [hc] at hstored hentry
    obtain ⟨cell', hc'⟩ := Option.isSome_iff_exists.1 (hstored rfl)
    rw [hc'] at hentry ⊢
    exact kept_of_unevaluated hentry

/-- The workbooks have the same sheets, with the same entries in all cells but `x`. -/
structure AgreeOff (x : CellKey) (book book' : Workbook) : Prop where
  names_eq : book'.names = book.names
  entryAt_eq : ∀ key, key ≠ x → book'.entryAt key = book.entryAt key
  stored : ∀ key, (book.cellAt key).isSome → (book'.cellAt key).isSome

namespace AgreeOff

variable (ha : AgreeOff x book book')
include ha

theorem hasSheet_iff (name : String) : book.HasSheet name ↔ book'.HasSheet name := by
  rw [HasSheet, HasSheet, ha.names_eq]

theorem kept {key : CellKey} (hkey : key ≠ x) : Kept (book.cellAt key) (book'.cellAt key) :=
  kept_of_entryAt (ha.entryAt_eq key hkey) (ha.stored key)

/-! ## Readers of the written cell -/

section Wired

variable (h : Wired book) (h' : Wired book')
include h h'

/-- A path from `x` to another cell does not need the edges into `x`. -/
theorem reaches_iff {key : CellKey} (hkey : key ≠ x) :
    TransGen book'.graph.ReadBy x key ↔ TransGen book.graph.ReadBy x key := by
  have hpath {r r' : CellKey → CellKey → Prop} (hedges : ∀ v ≠ x, ∀ u, r u v → r' u v)
      (hreach : TransGen r x key) : TransGen r' x key := by
    induction hreach with
    | single hread => exact .single (hedges _ hkey _ hread)
    | @tail u v _ hread ih =>
      by_cases hu : u = x
      · subst hu
        exact .single (hedges v hkey _ hread)
      · exact .tail (ih hu) (hedges v hkey u hread)
  exact ⟨hpath fun v hv u => (readBy_congr h h' (ha.entryAt_eq v hv) u).1,
    hpath fun v hv u => (readBy_congr h h' (ha.entryAt_eq v hv) u).2⟩

/-- The cells that `x` does not reach are as they were, and read only each other. -/
theorem mirrored :
    Mirrored id (fun key => key ≠ x ∧ ¬ TransGen book.graph.ReadBy x key) book book' := by
  refine mirrored_of_entryAt_eq h h' (fun key _ => ha.hasSheet_iff key.sheet) ?_
    fun key hkey => ha.entryAt_eq key hkey.1
  rintro key ⟨-, hreach⟩ source hread
  refine ⟨?_, fun hpath => hreach (hpath.tail hread)⟩
  rintro rfl
  exact hreach (.single hread)

end Wired

/-- A cell that `x` does not reach keeps its value. -/
theorem valueAt_eq (h : Valid book) (h' : Valid book') {key : CellKey} (hkey : key ≠ x)
    (hreach : ¬ TransGen book.graph.ReadBy x key) : book'.valueAt key = book.valueAt key :=
  (ha.mirrored h.wired h'.wired).valueAt_eq h h' ⟨hkey, hreach⟩

/-- Only `x` and the cells that it reaches change. -/
theorem reaches_of_changed (h : Valid book) (h' : Valid book') {key : CellKey}
    (hchanged : Changed book.valueAt book' key) :
    key = x ∨ TransGen book'.graph.ReadBy x key := by
  by_cases hkey : key = x
  · exact Or.inl hkey
  · right
    rw [ha.reaches_iff h.wired h'.wired hkey]
    by_contra hreach
    have hvalue := hchanged.2
    rw [ha.valueAt_eq h h' hkey hreach, agrees_self] at hvalue
    exact absurd hvalue (by decide)

end AgreeOff

/-! ## Writing -/

/-- A write edits one cell. -/
theorem agreeOff_write (h : Valid book) {name location : String} {content : Option String}
    {o : Outcome Unit} (ho : book.write name location content = .ok o) :
    ∃ p, Position.ofLocation location = .ok p ∧ AgreeOff (.on name p) book o.book := by
  obtain ⟨index, sheet, p, hs, hsheet, hp, hwrite⟩ := exists_writeAt_of_write h.wired.indexed ho
  have hon : CellKey.on sheet.name p = .on name p := by
    rw [CellKey.on, CellKey.on, hsheet]
  have hagrees := agrees_writeAt h hs (Position.inGrid_of_ofLocation hp) content
  have hwritten := cellAt_write h.wired.indexed hs p content
  rw [hon] at hwritten
  rw [hwrite] at hagrees
  refine ⟨p, hp, ?_, ?_, ?_⟩
  · exact hagrees.names_eq.trans ((cellEdit_write p content).names_eq book index)
  · intro key hkey
    rw [hagrees.entryAt_eq, entryAt, hwritten, if_neg hkey, entryAt]
  · intro key hkey
    apply hagrees.stored
    rw [hwritten]
    split
    · rfl
    · exact hkey

/-- A write to the cell `x` keeps the list of sheets, and of every other cell the content, the kind,
    the formula and the references. The cells that `x` reaches by a path of at least one edge are
    the same before and after; every other cell but `x` keeps its value, so listeners are told only
    of `x` and of cells that it reaches. -/
theorem write_local (commands : List Command) {name location : String} {content : Option String}
    {o : Outcome Unit} (ho : (after commands).write name location content = .ok o) :
    ∃ p, Position.ofLocation location = .ok p ∧
      let book := after commands
      let x := CellKey.on name p
      o.book.names = book.names ∧
      (∀ key ≠ x, Kept (book.cellAt key) (o.book.cellAt key)) ∧
      (∀ key ≠ x, TransGen o.book.graph.ReadBy x key ↔ TransGen book.graph.ReadBy x key) ∧
      (∀ key ≠ x, ¬ TransGen book.graph.ReadBy x key →
        o.book.valueAt key = book.valueAt key) ∧
      ∀ a ∈ o.announcements, ∀ cell ∈ a.batch, ∃ sheet ∈ o.book.sheets, ∃ q : Position,
        cell = ⟨sheet.name, q.address⟩ ∧
          (.on sheet.name q = x ∨ TransGen o.book.graph.ReadBy x (.on sheet.name q)) := by
  have h := valid_after commands
  obtain ⟨h', hannounced, -⟩ := edited_write h ho
  obtain ⟨p, hp, ha⟩ := agreeOff_write h ho
  refine ⟨p, hp, ha.names_eq, fun key hkey => ha.kept hkey,
    fun key hkey => ha.reaches_iff h.wired h'.wired hkey,
    fun key hkey hreach => ha.valueAt_eq h h' hkey hreach, ?_⟩
  intro a hmem cell hcell
  obtain ⟨-, hnil⟩ | ⟨-, batch, hbatch, hone⟩ := hannounced
  · rw [hnil] at hmem
    exact absurd hmem List.not_mem_nil
  · rw [hone, List.mem_singleton] at hmem
    subst hmem
    obtain ⟨sheet, hsheet, q, hchanged, rfl⟩ := (hbatch.mem_iff cell).1 hcell
    exact ⟨sheet, hsheet, q, rfl, ha.reaches_of_changed h h' hchanged⟩

/-- Nothing reaches a cell without a formula. -/
theorem not_reaches_of_formulaAt (h : Wired book) {key : CellKey} (hkey : book.formulaAt key = none)
    (u : CellKey) : ¬ TransGen book.graph.ReadBy u key := by
  intro hpath
  obtain ⟨v, -, hread⟩ := Relation.TransGen.tail'_iff.1 hpath
  have hmem := (h.readBy_iff (by simp)).1 hread
  rw [readsAt_eq_nil hkey] at hmem
  exact List.not_mem_nil hmem

/-- A formula that reads no other formula is on no cycle. -/
theorem not_onCycle_of_reads (h : Wired book) {key : CellKey}
    (hreads : ∀ source ∈ book.readsAt key, book.formulaAt source = none) :
    ¬ book.graph.OnCycle key := by
  intro hcycle
  obtain ⟨source, hpath, hread⟩ := Relation.TransGen.tail'_iff.1 hcycle
  have hmem := (h.readBy_iff (by simp)).1 hread
  have hsource := hreads source hmem
  rcases Relation.reflTransGen_iff_eq_or_transGen.1 hpath with rfl | hpath
  · rw [readsAt_eq_nil hsource] at hmem
    exact List.not_mem_nil hmem
  · exact not_reaches_of_formulaAt h hsource key hpath

/-- A formula that is a reference to a cell without a formula has the value of this cell, as a
    formula sees it. -/
theorem valueAt_reference (h : Valid book) {reader source : CellKey} {r : Reference}
    (he : book.formulaAt reader = some (.ref r)) (hr : r.cell? reader.sheet = some source)
    (hsheet : book.HasSheet source.sheet) (hsource : book.formulaAt source = none) :
    book.valueAt reader = some (Scalar.ofCell (book.valueAt source)).toCell := by
  have hreads : book.readsAt reader = [source] := by
    rw [h.wired.readsAt_eq_cells he]
    exact List.filterMap_cons_some hr
  have hcycle : ¬ book.graph.OnCycle reader :=
    not_onCycle_of_reads h.wired (by simpa [hreads] using hsource)
  obtain ⟨cell, hc, -⟩ := exists_cellAt he
  rw [(h.current reader _ he).2 hcycle, Formula.Expr.value, Formula.Expr.scalar,
    read_view (h.wired.indexed.hasSheet_of_cellAt hc), hr]
  simp only [hsheet, if_true]

/-- A cell without a formula has not changed if its entry has not. -/
theorem not_changed_of_entryAt {key : CellKey} (hentry : book'.entryAt key = book.entryAt key)
    (hkey : book.formulaAt key = none) : ¬ Changed book.valueAt book' key := by
  intro hchanged
  have hkey' : book'.formulaAt key = none := by rw [formulaAt_eq, hentry, ← formulaAt_eq, hkey]
  have hvalue := hchanged.2
  rw [valueAt_eq hkey', hentry, ← valueAt_eq hkey, agrees_self] at hvalue
  exact absurd hvalue (by decide)

/-- A formula that refers to itself is typed next to a text. -/
theorem write_local_self_reference :
    let book := after [.addSheet (some "A"), .write "A" "B1" (some "x")]
    ∃ o, book.write "A" "A1" (some "=A1") = .ok o ∧
      o.book.valueAt (.on "A" ⟨0, 1⟩) = book.valueAt (.on "A" ⟨0, 1⟩) := by
  let commands : List Command := [.addSheet (some "A"), .write "A" "B1" (some "x")]
  have hname : nameFault? "A" = none := rfl
  have hlocation : Position.ofLocation "B1" = .ok ⟨0, 1⟩ := rfl
  obtain ⟨hnames, hentry⟩ := entries_first_write hname hlocation (some "x")
  have hnamed : (after commands).named? "A" "A1" = some (.on "A" ⟨0, 0⟩) :=
    named?_of_names hnames rfl
  obtain ⟨result, hrun, -⟩ := run_write (valid_after commands) hnamed (some "=A1")
  obtain ⟨o, ho, -⟩ := map_eq_ok_iff.1 hrun
  have htext : (after commands).formulaAt (.on "A" ⟨0, 1⟩) = none := by
    rw [formulaAt_eq, hentry, if_pos rfl]
    with_unfolding_all rfl
  obtain ⟨p, hp, -, -, -, hvalue, -⟩ := write_local commands ho
  obtain rfl : ⟨0, 0⟩ = p := Except.ok.inj hp
  have hreach := not_reaches_of_formulaAt (valid_after commands).wired htext (.on "A" ⟨0, 0⟩)
  exact ⟨o, ho, hvalue _ (by decide) hreach⟩

end Workbook

end Spreadsheet
