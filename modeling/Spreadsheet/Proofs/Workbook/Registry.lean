import Spreadsheet.Proofs.Workbook.History

/-!
# The registry of sheets

Sheets are found through the registry, and every change of the list of sheets has to keep it in
step. It does so in every reachable workbook: a name finds the sheet that has it, in any case, where
the list has this sheet.

Results:
* `ExactRegistry`: one entry for each sheet, names that are allowed and differ, look-ups that find
  what they should.
* `Valid.exactRegistry`: valid workbooks have an exact registry.
* `moved_moveSheet`: a move moves one sheet and changes nothing else that a user sees.
* `registry_exact`: all of it, for every reachable workbook.
-/

namespace Spreadsheet.Workbook

variable {book book' : Workbook}

/-! ## One entry for each sheet -/

namespace Indexed

variable (h : book.Indexed)
include h

theorem size_registry : book.registry.size = book.size := by
  rw [size_eq_length h.nodup_names fun _ => h.hasSheet_iff_registry, List.length_map, names,
    List.length_map, size]

theorem sheet?_eq_some_iff {name : String} {sheet : Sheet} :
    book.sheet? name = some sheet ↔ sheet ∈ book.sheets ∧ upper sheet.name = upper name := by
  have hsheet : book.sheet? name = book.sheetOf? (.on name ⟨0, 0⟩) := rfl
  rw [hsheet, h.sheetOf?_eq_some_iff, CellKey.on]

end Indexed

/-- The registry has one entry for each sheet, under its name in upper case and with its place in
    the list. The names break no rule and differ in more than case. So a name finds a sheet iff some
    sheet has this name in any case, and finds this sheet at its place. -/
structure ExactRegistry (book : Workbook) : Prop where
  entry_iff : ∀ (name : String) (i : Nat),
    book.registry[name]? = some i ↔ (book.names[i]?).map upper = some name
  size_eq : book.registry.size = book.size
  allowed : ∀ name ∈ book.names, nameFault? name = none
  nodup : (book.names.map upper).Nodup
  found_iff : ∀ name, (book.sheet? name).isSome ↔ ∃ other ∈ book.names, upper other = upper name
  found : ∀ name sheet, book.sheet? name = some sheet →
    upper sheet.name = upper name ∧
      ∃ i, book.position? name = some i ∧ book.sheets[i]? = some sheet

theorem Valid.exactRegistry (h : Valid book) : book.ExactRegistry where
  entry_iff := indexed_iff.1 h.wired.indexed
  size_eq := h.wired.indexed.size_registry
  allowed := h.allowed
  nodup := h.wired.indexed.nodup_names
  found_iff name := by
    simp [Option.isSome_iff_exists, h.wired.indexed.sheet?_eq_some_iff, names]
  found name sheet hfound := by
    obtain ⟨hmem, hname⟩ := h.wired.indexed.sheet?_eq_some_iff.1 hfound
    obtain ⟨i, hi⟩ := List.getElem?_of_mem hmem
    exact ⟨hname, i, h.wired.indexed.position?_eq_some_iff.2 ⟨sheet, hi, hname⟩, hi⟩

/-! ## Moving a sheet -/

/-- The workbook `book'` is `book` with the sheet of this name at the place `target`. The others are
    in the order that they had; cells, values and the graph are the same. -/
structure Moved (name : String) (target : Nat) (book book' : Workbook) : Prop where
  placed : ∃ i sheet, book.position? name = some i ∧ book.sheets[i]? = some sheet ∧
    book'.sheets[target]? = some sheet ∧ book'.sheets.eraseIdx target = book.sheets.eraseIdx i
  position_eq : book'.position? name = some target
  cellAt_eq : ∀ key, book'.cellAt key = book.cellAt key
  looksLike : LooksLike book book'
  graph_eq : book'.graph = book.graph
  listeners_eq : book'.listeners = book.listeners

/-- The result of a move is the workbook with the sheet moved. Nobody is told. -/
theorem moved_moveSheet (h : Valid book) {name : String} {target : Nat} {o : Outcome Unit}
    (ho : book.moveSheet name target = .ok o) :
    Moved name target book o.book ∧ o.announcements = [] := by
  have hvalid := (edited_moveSheet h ho).valid
  obtain ⟨i, sheet, hposition, hs, htarget, rfl⟩ := (moveSheet_eq_ok_iff h.wired.indexed).1 ho
  have hperm := perm_insertIdx_eraseIdx hs htarget
  have hcells := cellAt_perm h.wired.indexed hperm
  have hplaced : ((book.sheets.eraseIdx i).insertIdx target sheet)[target]? = some sheet := by
    have hlength := List.length_eraseIdx_of_lt (List.getElem?_eq_some_iff.1 hs).1
    rw [List.getElem?_insertIdx_self, if_pos (by rw [hlength]; exact Nat.le_sub_one_of_lt htarget)]
  have hname : upper sheet.name = upper name := by
    obtain ⟨sheet', hs', hname⟩ := h.wired.indexed.position?_eq_some_iff.1 hposition
    obtain rfl := Option.some.inj (hs.symm.trans hs')
    exact hname
  have hsame : SameEntries book
      (book.arrange ((book.sheets.eraseIdx i).insertIdx target sheet)) :=
    ⟨fun name => ((hperm.map Sheet.name).map upper).mem_iff.symm, fun key => by
      rw [entryAt, entryAt, hcells]⟩
  refine ⟨⟨⟨i, sheet, hposition, hs, hplaced, ?_⟩, ?_, hcells, hsame.looksLike h hvalid, rfl, rfl⟩,
    rfl⟩
  · exact List.eraseIdx_insertIdx_self _
  · exact hvalid.wired.indexed.position?_eq_some_iff.2 ⟨sheet, hplaced, hname⟩

/-! ## Reachable workbooks -/

/-- The registry of a reachable workbook is exact, and a sheet can be moved to every place of the
    list. A move changes the order of the sheets and nothing else, and nobody is told. -/
theorem registry_exact (commands : List Command) :
    let book := after commands
    book.ExactRegistry ∧
    (∀ name target, (∃ o, book.moveSheet name target = .ok o) ↔
      (book.sheet? name).isSome ∧ target < book.size) ∧
    ∀ name target o, book.moveSheet name target = .ok o →
      Moved name target book o.book ∧ o.book.ExactRegistry ∧ o.announcements = [] := by
  intro book
  have h := valid_after commands
  refine ⟨h.exactRegistry, fun name target => ?_, fun name target o ho => ?_⟩
  · rw [exists_moveSheet_iff h.wired.indexed, h.exactRegistry.found_iff, HasSheet, List.mem_map]
  · obtain ⟨hmoved, hsilent⟩ := moved_moveSheet h ho
    exact ⟨hmoved, (edited_moveSheet h ho).valid.exactRegistry, hsilent⟩

end Spreadsheet.Workbook
