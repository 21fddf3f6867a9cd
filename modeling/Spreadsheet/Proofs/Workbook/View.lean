import Spreadsheet.Proofs.Sheet
import Spreadsheet.Workbook.Recalculation

/-!
# A workbook without the places of its sheets

The registry and the list of sheets are an arrangement: what a workbook says is which names have a
sheet, and which cell is stored under each key.

Results:
* `Indexed`: the registry holds the place of every sheet and nothing else.
* `sheetOf?_eq_some_iff`, `cellAt_eq_some_iff`: look-ups see the sheets and not their places.
* `CellEdit.cellAt`: an edit of one cell of a sheet changes the cell with that key only.
-/

namespace Spreadsheet.Workbook

open Formula (Expr)

/-! ## The registry -/

/-- The registry holds the place of every sheet under its name in upper case, and nothing else. -/
def Indexed (book : Workbook) : Prop :=
  ∀ (name : String) (i : Nat),
    book.registry[name]? = some i ↔ ∃ sheet, book.sheets[i]? = some sheet ∧ upper sheet.name = name

/-- A sheet has this name, which is in upper case. -/
def HasSheet (book : Workbook) (name : String) : Prop :=
  name ∈ book.names.map upper

variable {book : Workbook}

theorem indexed_iff : book.Indexed ↔ ∀ (name : String) (i : Nat),
    book.registry[name]? = some i ↔ (book.names[i]?).map upper = some name := by
  simp only [Indexed, names, List.getElem?_map, Option.map_eq_some_iff, exists_exists_and_eq_and]

theorem hasSheet_iff {name : String} :
    book.HasSheet name ↔ ∃ sheet ∈ book.sheets, upper sheet.name = name := by
  simp [HasSheet, names]

theorem hasSheet_congr {book' : Workbook} (hnames : book'.names = book.names) (name : String) :
    book'.HasSheet name ↔ book.HasSheet name := by
  rw [HasSheet, HasSheet, hnames]

/-- A workbook with a single sheet has no other one. -/
theorem hasSheet_of_names {name : String} (hnames : book.names = [name]) (n : String) :
    book.HasSheet n ↔ n = upper name := by
  rw [HasSheet, hnames, List.map_singleton, List.mem_singleton]

theorem not_hasSheet_empty (name : String) : ¬ empty.HasSheet name :=
  List.not_mem_nil

theorem upper_of_hasSheet {name : String} (h : book.HasSheet name) : upper name = name := by
  obtain ⟨sheet, -, rfl⟩ := hasSheet_iff.1 h
  exact upper_upper sheet.name

namespace Indexed

variable (h : book.Indexed)
include h

theorem hasSheet_iff_registry {name : String} :
    book.HasSheet name ↔ ∃ i, book.registry[name]? = some i := by
  rw [hasSheet_iff]
  constructor
  · rintro ⟨sheet, hmem, hname⟩
    obtain ⟨i, hi⟩ := List.getElem?_of_mem hmem
    exact ⟨i, (h name i).2 ⟨sheet, hi, hname⟩⟩
  · rintro ⟨i, hi⟩
    obtain ⟨sheet, hs, hname⟩ := (h name i).1 hi
    exact ⟨sheet, List.mem_of_getElem? hs, hname⟩

theorem position?_eq_some_iff {name : String} {i : Nat} :
    book.position? name = some i ↔
      ∃ sheet, book.sheets[i]? = some sheet ∧ upper sheet.name = upper name :=
  h (upper name) i

theorem registry_eq_none {name : String} (hname : ¬ book.HasSheet name) :
    book.registry[name]? = none := by
  rcases hr : book.registry[name]? with _ | i
  · rfl
  · exact absurd (h.hasSheet_iff_registry.2 ⟨i, hr⟩) hname

/-- Different sheets have different names, in any case. -/
theorem eq_of_upper_eq {i j : Nat} {s t : Sheet} (hi : book.sheets[i]? = some s)
    (hj : book.sheets[j]? = some t) (hname : upper s.name = upper t.name) : i = j := by
  have hri := (h _ i).2 ⟨s, hi, rfl⟩
  have hrj := (h _ j).2 ⟨t, hj, rfl⟩
  rw [hname, hrj] at hri
  exact (Option.some.inj hri).symm

theorem nodup_names : (book.names.map upper).Nodup := by
  rw [List.nodup_iff_getElem?_ne_getElem?]
  intro i j hij hj heq
  simp only [names, List.map_map, List.length_map] at hj
  have hjs : book.sheets[j]? = some book.sheets[j] := by simp [hj]
  have hi : i < book.sheets.length := by omega
  have his : book.sheets[i]? = some book.sheets[i] := by simp [hi]
  simp only [names, List.getElem?_map, hjs, his, Option.map_some, Option.some.injEq] at heq
  have := h.eq_of_upper_eq his hjs heq
  omega

/-! ## Sheets and cells -/

theorem sheetOf?_eq_some_iff {key : CellKey} {sheet : Sheet} :
    book.sheetOf? key = some sheet ↔ sheet ∈ book.sheets ∧ upper sheet.name = key.sheet := by
  rw [sheetOf?, Option.bind_eq_some_iff]
  constructor
  · rintro ⟨i, hi, hs⟩
    obtain ⟨sheet', hs', hname⟩ := (h _ i).1 hi
    rw [hs] at hs'
    obtain rfl := Option.some.inj hs'
    exact ⟨List.mem_of_getElem? hs, hname⟩
  · rintro ⟨hmem, hname⟩
    obtain ⟨i, hi⟩ := List.getElem?_of_mem hmem
    exact ⟨i, (h _ i).2 ⟨sheet, hi, hname⟩, hi⟩

theorem sheetOf?_eq_none_iff {key : CellKey} :
    book.sheetOf? key = none ↔ ¬ book.HasSheet key.sheet := by
  rw [Option.eq_none_iff_forall_ne_some, hasSheet_iff]
  simp only [ne_eq, h.sheetOf?_eq_some_iff, not_exists]

theorem cellAt_eq_some_iff {key : CellKey} {cell : Cell} :
    book.cellAt key = some cell ↔
      ∃ sheet ∈ book.sheets, upper sheet.name = key.sheet ∧
        sheet.cell? key.position = some cell := by
  simp only [cellAt, Option.bind_eq_some_iff, h.sheetOf?_eq_some_iff, and_assoc]

theorem cellAt_eq {sheet : Sheet} (hmem : sheet ∈ book.sheets) {key : CellKey}
    (hname : upper sheet.name = key.sheet) : book.cellAt key = sheet.cell? key.position := by
  rw [cellAt, h.sheetOf?_eq_some_iff.2 ⟨hmem, hname⟩]
  rfl

theorem cellAt_eq_none {key : CellKey} (hname : ¬ book.HasSheet key.sheet) :
    book.cellAt key = none := by
  rw [cellAt, h.sheetOf?_eq_none_iff.2 hname]
  rfl

theorem hasSheet_of_cellAt {key : CellKey} {cell : Cell} (hc : book.cellAt key = some cell) :
    book.HasSheet key.sheet := by
  obtain ⟨sheet, hmem, hname, -⟩ := h.cellAt_eq_some_iff.1 hc
  exact hasSheet_iff.2 ⟨sheet, hmem, hname⟩

end Indexed

/-! ## What was entered -/

/-- The cell with this key without the value of a formula; a cell that is not stored is blank. -/
def entryAt (book : Workbook) (key : CellKey) : Cell :=
  ((book.cellAt key).getD .blank).unevaluated

/-- The formula at a key. -/
def formulaAt (book : Workbook) (key : CellKey) : Option Expr :=
  (book.cellAt key).bind Cell.expr?

/-- The cells that the formula at a key refers to, one for each reference in the grid. -/
def readsAt (book : Workbook) (key : CellKey) : List CellKey :=
  (book.entryAt key).targets.filterMap (resolve key.sheet)

theorem formulaAt_eq (key : CellKey) : book.formulaAt key = (book.entryAt key).expr? := by
  rw [formulaAt, entryAt, Cell.expr?_unevaluated]
  rcases book.cellAt key with _ | cell <;> rfl

theorem readsAt_eq (key : CellKey) :
    book.readsAt key =
      ((book.cellAt key).elim [] Cell.targets).filterMap (resolve key.sheet) := by
  rw [readsAt, entryAt, Cell.targets, Cell.expr?_unevaluated]
  rcases book.cellAt key with _ | cell <;> rfl

theorem readsAt_eq_nil {key : CellKey} (h : book.formulaAt key = none) : book.readsAt key = [] := by
  rw [readsAt, Cell.targets, ← formulaAt_eq, h]
  rfl

theorem readsAt_of_formulaAt {key : CellKey} {e : Expr} (h : book.formulaAt key = some e) :
    book.readsAt key = e.targets.filterMap (resolve key.sheet) := by
  rw [readsAt, Cell.targets, ← formulaAt_eq, h]

/-- A cell without a formula has the value that was entered. -/
theorem valueAt_eq {key : CellKey} (h : book.formulaAt key = none) :
    book.valueAt key = (book.entryAt key).value? := by
  rw [formulaAt] at h
  rw [valueAt, entryAt]
  rcases hc : book.cellAt key with _ | cell
  · rfl
  · rw [hc] at h
    exact (Cell.value?_unevaluated h).symm

theorem valueAt_of_entryAt {key : CellKey} {cell : Cell} (h : book.entryAt key = cell)
    (hcell : cell.expr? = none) : book.valueAt key = cell.value? := by
  rw [valueAt_eq (by rw [formulaAt_eq, h, hcell]), h]

theorem exists_cellAt {key : CellKey} {e : Expr} (h : book.formulaAt key = some e) :
    ∃ cell, book.cellAt key = some cell ∧ cell.expr? = some e :=
  Option.bind_eq_some_iff.1 h

/-! ## Editing one cell -/

/-- The edit of a sheet changes one cell, in a way that does not depend on the others. -/
structure CellEdit (f : Sheet → Sheet) (p : Position) (g : Option Cell → Option Cell) : Prop where
  name_eq : ∀ sheet, (f sheet).name = sheet.name
  cell?_eq : ∀ sheet q, (f sheet).cell? q = if q = p then g (sheet.cell? p) else sheet.cell? q

theorem cellEdit_ensure (p : Position) :
    CellEdit (·.ensure p) p fun cell => some (cell.getD .blank) :=
  ⟨fun _ => rfl, fun sheet q => sheet.cell?_ensure p q⟩

theorem cellEdit_evaluated (p : Position) (value : CellValue) :
    CellEdit (·.evaluated p value) p (Option.map (Cell.evaluated value)) :=
  ⟨fun _ => rfl, fun sheet q => sheet.cell?_evaluated p q value⟩

theorem cellEdit_write (p : Position) (content : Option String) :
    CellEdit (·.write p content) p fun _ => some (Cell.ofContent content) :=
  ⟨fun sheet => sheet.name_write p content, fun sheet q => sheet.cell?_write p q content⟩

theorem getElem?_modifySheet (i j : Nat) (f : Sheet → Sheet) :
    (book.modifySheet i f).sheets[j]? =
      if i = j then (book.sheets[j]?).map f else book.sheets[j]? := by
  rw [modifySheet, List.getElem?_modify]
  split
  · rfl
  · rcases book.sheets[j]? with _ | sheet <;> rfl

/-- Sheets stay sound if the edited one does. -/
theorem sound_modifySheet (h : ∀ sheet ∈ book.sheets, sheet.Sound) {i : Nat} {f : Sheet → Sheet}
    (hf : ∀ sheet, book.sheets[i]? = some sheet → sheet.Sound → (f sheet).Sound) :
    ∀ sheet ∈ (book.modifySheet i f).sheets, sheet.Sound := by
  intro sheet hmem
  obtain ⟨j, hj⟩ := List.getElem?_of_mem hmem
  rw [getElem?_modifySheet] at hj
  split at hj
  · rename_i hij
    obtain ⟨old, hold, rfl⟩ := Option.map_eq_some_iff.1 hj
    exact hf old (hij ▸ hold) (h old (List.mem_of_getElem? hold))
  · exact h sheet (List.mem_of_getElem? hj)

namespace CellEdit

variable {f : Sheet → Sheet} {p : Position} {g : Option Cell → Option Cell} (he : CellEdit f p g)
include he

theorem names_eq (book : Workbook) (i : Nat) : (book.modifySheet i f).names = book.names := by
  apply List.ext_getElem?
  intro j
  simp only [names, List.getElem?_map, getElem?_modifySheet]
  split
  · rcases book.sheets[j]? with _ | sheet
    · rfl
    · simp [he.name_eq]
  · rfl

theorem indexed (h : book.Indexed) (i : Nat) : (book.modifySheet i f).Indexed := by
  intro name j
  have hname (sheet : Sheet) : upper (f sheet).name = upper sheet.name := by rw [he.name_eq]
  rw [show (book.modifySheet i f).registry = book.registry from rfl, h name j,
    getElem?_modifySheet]
  split
  · rcases book.sheets[j]? with _ | sheet
    · simp
    · simp [hname]
  · rfl

/-- An edit of one cell changes the cell with its key only. -/
theorem cellAt (h : book.Indexed) {name : String} {i : Nat} (hi : book.registry[name]? = some i)
    (key : CellKey) :
    (book.modifySheet i f).cellAt key =
      if key = ⟨name, p⟩ then g (book.cellAt ⟨name, p⟩) else book.cellAt key := by
  obtain ⟨sheet, hs, hname⟩ := (h name i).1 hi
  have hmem := List.mem_of_getElem? hs
  have hedited : f sheet ∈ (book.modifySheet i f).sheets := by
    apply List.mem_of_getElem? (i := i)
    rw [getElem?_modifySheet, if_pos rfl, hs]
    rfl
  obtain ⟨keySheet, q⟩ := key
  by_cases hsheet : keySheet = name
  · subst hsheet
    rw [(he.indexed h i).cellAt_eq hedited (by rw [he.name_eq]; exact hname), he.cell?_eq,
      h.cellAt_eq hmem hname, h.cellAt_eq hmem hname]
    simp
  · rw [if_neg (by simp [hsheet])]
    have hother (j : Nat) (hj : book.registry[keySheet]? = some j) :
        (book.modifySheet i f).sheets[j]? = book.sheets[j]? := by
      obtain ⟨other, ho, hname'⟩ := (h _ j).1 hj
      rw [getElem?_modifySheet, if_neg]
      rintro rfl
      rw [hs] at ho
      obtain rfl := Option.some.inj ho
      exact hsheet (hname'.symm.trans hname)
    rw [Workbook.cellAt, Workbook.cellAt, sheetOf?, sheetOf?]
    rw [show (book.modifySheet i f).registry = book.registry from rfl]
    rcases hr : book.registry[keySheet]? with _ | j
    · rfl
    · simp only [Option.bind_some, hother j hr]

end CellEdit

end Spreadsheet.Workbook
