import Spreadsheet.Proofs.Workbook.Reachable

/-!
# Entries

What was entered into the cells of a workbook, without the values of formulas.

Results:
* `content_eq`, `value_eq`, `extent_congr`: what a user sees, by entries and values.
* `run_write`, `run_write_eq_error`: a write succeeds iff there is the cell.
* `changed_of_write_text`: a text written to a blank cell changes its value.
* `entries_write`, `entries_addSheet`, `entries_deleteSheet`: what calls make of the entries.
-/

namespace Spreadsheet.Workbook

variable {book book' : Workbook}

/-! ## What a user sees -/

theorem locate_of_hasSheet (h : book.Indexed) {name : String} (hname : book.HasSheet (upper name)) :
    ∃ index sheet, book.locate name = .ok index ∧ book.sheets[index]? = some sheet ∧
      upper sheet.name = upper name := by
  obtain ⟨sheet, hmem, hsheet⟩ := hasSheet_iff.1 hname
  obtain ⟨index, hs⟩ := List.getElem?_of_mem hmem
  exact ⟨index, sheet, (locate_eq_ok_iff h).2 ⟨sheet, hs, hsheet⟩, hs, hsheet⟩

theorem locate_of_not_hasSheet (h : book.Indexed) {name : String}
    (hname : ¬ book.HasSheet (upper name)) : book.locate name = .error (.sheetNotFound name) := by
  rw [locate, position?, h.registry_eq_none hname]

theorem exists_locate_iff (h : book.Indexed) {name : String} :
    (∃ index, book.locate name = .ok index) ↔ book.HasSheet (upper name) := by
  constructor
  · rintro ⟨index, hindex⟩
    obtain ⟨sheet, hs, hname⟩ := (locate_eq_ok_iff h).1 hindex
    exact hasSheet_iff.2 ⟨sheet, List.mem_of_getElem? hs, hname⟩
  · intro hname
    obtain ⟨index, _, hindex, -⟩ := locate_of_hasSheet h hname
    exact ⟨index, hindex⟩

/-- A sheet can be moved to every place of the list. -/
theorem exists_moveSheet_iff (h : book.Indexed) {name : String} {target : Nat} :
    (∃ o, book.moveSheet name target = .ok o) ↔
      book.HasSheet (upper name) ∧ target < book.size := by
  rw [← exists_locate_iff h]
  simp only [moveSheet, bind_eq_ok_iff]
  constructor
  · rintro ⟨_, index, hindex, htarget⟩
    split at htarget
    · simp at htarget
    · exact ⟨⟨index, hindex⟩, by omega⟩
  · rintro ⟨⟨index, hindex⟩, htarget⟩
    exact ⟨_, index, hindex, if_neg (by omega)⟩

theorem content?_entryAt (h : book.Indexed) {sheet : Sheet} (hmem : sheet ∈ book.sheets)
    {key : CellKey} (hname : upper sheet.name = key.sheet) :
    (book.entryAt key).content? = sheet.content? key.position := by
  rw [entryAt, Cell.content?_unevaluated, h.cellAt_eq hmem hname, Sheet.content?]
  rcases sheet.cell? key.position with _ | cell <;> rfl

/-- What is found in a cell that a user names; there may be no such cell. -/
def answer {α : Type} (book : Workbook) (f : CellKey → α) (name location : String) :
    Except WorkbookError α :=
  if book.HasSheet (upper name) then
    match Position.ofLocation location with
    | .ok p => .ok (f (.on name p))
    | .error _ => .error (.invalidLocation location)
  else
    .error (.sheetNotFound name)

theorem content_eq (h : book.Indexed) (name location : String) :
    book.content name location =
      book.answer (fun key => (book.entryAt key).content?) name location := by
  rw [content, locateCell, answer]
  by_cases hname : book.HasSheet (upper name)
  · obtain ⟨index, sheet, hlocate, hs, hsheet⟩ := locate_of_hasSheet h hname
    rw [if_pos hname, hlocate]
    rcases Position.ofLocation location with e | p
    · rfl
    · have hentry : (book.entryAt (.on name p)).content? = sheet.content? p :=
        content?_entryAt h (List.mem_of_getElem? hs) hsheet
      simp only [bind, Except.bind, hs, Option.bind_some, hentry]
      rfl
  · rw [if_neg hname, locate_of_not_hasSheet h hname]
    rfl

theorem value_eq (h : book.Indexed) (name location : String) :
    book.value name location = book.answer book.valueAt name location := by
  rw [value, locateCell, answer]
  by_cases hname : book.HasSheet (upper name)
  · obtain ⟨index, sheet, hlocate, hs, hsheet⟩ := locate_of_hasSheet h hname
    rw [if_pos hname, hlocate]
    rcases Position.ofLocation location with e | p
    · rfl
    · have hcell : book.cellAt (.on name p) = sheet.cell? p :=
        h.cellAt_eq (List.mem_of_getElem? hs) hsheet
      simp only [bind, Except.bind, hs, Option.bind_some, Sheet.value?, valueAt, hcell]
      rfl
  · rw [if_neg hname, locate_of_not_hasSheet h hname]
    rfl

/-- The extent of a sheet follows from its entries. -/
theorem extent_congr (h : Wired book) (h' : Wired book') {name name' : String}
    (hname : book.HasSheet (upper name)) (hname' : book'.HasSheet (upper name'))
    (hentry : ∀ p, book'.entryAt (.on name' p) = book.entryAt (.on name p)) :
    book'.extent name' = book.extent name := by
  obtain ⟨i, sheet, hlocate, hi, hsheet⟩ := locate_of_hasSheet h.indexed hname
  obtain ⟨j, sheet', hlocate', hj, hsheet'⟩ := locate_of_hasSheet h'.indexed hname'
  have hmem := List.mem_of_getElem? hi
  have hmem' := List.mem_of_getElem? hj
  have hcontent (p : Position) : sheet'.content? p = sheet.content? p := by
    have hcell := congrArg Cell.content? (hentry p)
    rwa [content?_entryAt h.indexed hmem hsheet, content?_entryAt h'.indexed hmem' hsheet'] at hcell
  have hextent := Sheet.extent_congr (h'.sound sheet' hmem').toCounted
    (h.sound sheet hmem).toCounted
    fun p => congrArg Option.isSome (hcontent p)
  simp only [extent, hlocate, hlocate', hi, hj, Option.elim_some, bind, Except.bind, hextent]

/-! ## Entries after calls -/

/-- Settling changes no entry. -/
theorem agrees_settle (h : Wired book) (changes : Changes) (written : List CellKey) :
    Agrees book (book.settle changes written).1 :=
  (settle_spec h changes written).1.agrees h.indexed

theorem agrees_writeAt (h : Valid book) {index : Nat} {sheet : Sheet}
    (hs : book.sheets[index]? = some sheet) {p : Position} (hp : p.inGrid)
    (content : Option String) :
    Agrees (book.modifySheet index (·.write p content)) (book.writeAt index p content).1 := by
  have hoff := wiredOff_write h.wired hs hp content
  have hkey : CellKey.on sheet.name p ∈ (book.graph.add (.on sheet.name p)).keys := by
    rw [DependencyGraph.keys_add h.wired.graph, DependencyGraph.mem_insertKey]
    exact Or.inr rfl
  have hlinked := (linked_link hoff hkey).agrees
  have hsettled := agrees_settle (prepared_write h hs hp content).wired
    (Changes.none.touch (.on sheet.name p) (sheet.value? p)) [.on sheet.name p]
  rw [writeAt_eq hs]
  obtain ⟨hregistry, hnames, hlisteners, hentry, hstored, hsound⟩ := hlinked.trans hsettled
  exact ⟨hregistry, hnames, hlisteners, hentry, hstored, hsound⟩

/-- The cell that a user names, if there is this cell. -/
def named? (book : Workbook) (name location : String) : Option CellKey :=
  if book.HasSheet (upper name) then (Position.ofLocation location).toOption.map (.on name)
  else none

theorem named?_eq_some_iff {name location : String} {key : CellKey} :
    book.named? name location = some key ↔
      book.HasSheet (upper name) ∧
        ∃ p, Position.ofLocation location = .ok p ∧ .on name p = key := by
  rw [named?, Option.ite_none_right_eq_some, Option.map_eq_some_iff]
  rcases Position.ofLocation location with e | p <;> simp [Except.toOption]

/-- The cells of a single sheet can be named. -/
theorem named?_of_names {name location : String} (hnames : book.names = [name]) {p : Position}
    (hp : Position.ofLocation location = .ok p) :
    book.named? name location = some (.on name p) :=
  named?_eq_some_iff.2 ⟨(hasSheet_of_names hnames _).2 rfl, p, hp, rfl⟩

/-- A write to a cell succeeds and sets its entry. -/
theorem run_write (h : Valid book) {name location : String} {key : CellKey}
    (hkey : book.named? name location = some key) (content : Option String) :
    ∃ o, (Command.write name location content).run book = .ok o ∧
      o.1.names = book.names ∧
      ∀ k, o.1.entryAt k = if k = key then Cell.ofContent content else book.entryAt k := by
  obtain ⟨hname, p, hp, rfl⟩ := named?_eq_some_iff.1 hkey
  obtain ⟨index, sheet, hlocate, hs, hsheet⟩ := locate_of_hasSheet h.wired.indexed hname
  have hagrees := agrees_writeAt h hs (Position.inGrid_of_ofLocation hp) content
  have hon : CellKey.on sheet.name p = .on name p := by
    rw [CellKey.on, CellKey.on, hsheet]
  refine ⟨book.writeAt index p content, ?_,
    hagrees.names_eq.trans ((cellEdit_write p content).names_eq book index), fun k => ?_⟩
  · simp [Command.run, write, locateCell, hlocate, hp, bind, Except.bind, Except.map, pure,
      Except.pure]
  · rw [hagrees.entryAt_eq, entryAt, cellAt_write h.wired.indexed hs, hon]
    by_cases hk : k = .on name p
    · rw [if_pos hk, if_pos hk, Option.getD_some, Cell.unevaluated_ofContent]
    · rw [if_neg hk, if_neg hk]
      rfl

/-- Text that is written to a blank cell changes its value. -/
theorem changed_of_write_text (h : Valid book) {name location content text : String} {key : CellKey}
    (hkey : book.named? name location = some key) (hblank : book.entryAt key = .blank)
    (htext : Cell.ofContent (some content) = .literal content (.text text))
    {announcements : List Announcement}
    (hrun : (Command.write name location (some content)).run book = .ok (book', announcements)) :
    Changed book.valueAt book' key := by
  obtain ⟨o, ho, hnames, hentry⟩ := run_write h hkey (some content)
  obtain rfl : o = (book', announcements) := Except.ok.inj (ho.symm.trans hrun)
  obtain ⟨hname, p, -, rfl⟩ := named?_eq_some_iff.1 hkey
  have hwritten : book'.entryAt (.on name p) = .literal content (.text text) :=
    (hentry _).trans ((if_pos rfl).trans htext)
  refine ⟨(hasSheet_congr hnames _).2 hname, ?_⟩
  rw [valueAt_of_entryAt hblank rfl, valueAt_of_entryAt hwritten rfl]
  rfl

/-- A write fails if there is no cell. -/
theorem run_write_eq_error (h : book.Indexed) {name location : String}
    (hkey : book.named? name location = none) (content : Option String) :
    ∃ e, (Command.write name location content).run book = .error e := by
  by_cases hname : book.HasSheet (upper name)
  · obtain ⟨index, sheet, hlocate, -, -⟩ := locate_of_hasSheet h hname
    rcases hp : Position.ofLocation location with e | p
    · exact ⟨.invalidLocation location, by
        simp [Command.run, write, locateCell, hlocate, hp, bind, Except.bind, Except.map]⟩
    · rw [named?_eq_some_iff.2 ⟨hname, p, hp, rfl⟩] at hkey
      simp at hkey
  · exact ⟨.sheetNotFound name, by
      simp [Command.run, write, locateCell, locate_of_not_hasSheet h hname, bind, Except.bind,
        Except.map]⟩

/-- A write sets the entry of the cell that is named, if there is this cell. -/
theorem entries_write (h : Valid book) (name location : String) (content : Option String) :
    let book' := (Command.write name location content).apply book
    book'.names = book.names ∧
      ∀ key, book'.entryAt key =
        if book.named? name location = some key then Cell.ofContent content
        else book.entryAt key := by
  intro book'
  rcases hkey : book.named? name location with _ | key
  · obtain ⟨e, he⟩ := run_write_eq_error h.wired.indexed hkey content
    have hsame : book' = book := by
      simp only [book', Command.apply, he]
    rw [hsame]
    exact ⟨rfl, fun k => by simp⟩
  · obtain ⟨o, ho, hnames, hentry⟩ := run_write h hkey content
    have hwritten : book' = o.1 := by
      simp only [book', Command.apply, ho]
    rw [hwritten]
    refine ⟨hnames, fun k => ?_⟩
    simp only [hentry, Option.some.injEq, eq_comm]

/-- Adding a sheet with a name that is free succeeds. -/
theorem addSheet_eq_ok (h : book.Indexed) {name : String} (hname : nameFault? name = none)
    (hfree : ¬ book.HasSheet (upper name)) :
    book.addSheet (some name) = .ok (book.append name) :=
  (addSheet_eq_ok_iff h).2 ⟨hname, hfree, rfl⟩

/-- Adding a sheet with a name that is free adds no entry. -/
theorem entries_append (h : Valid book) {name : String} (hname : nameFault? name = none)
    (hfree : ¬ book.HasSheet (upper name)) :
    (book.append name).book.names = book.names ++ [name] ∧
      ∀ key, (book.append name).book.entryAt key = book.entryAt key := by
  have hagrees : Agrees (book.push name) (book.append name).book :=
    agrees_settle (prepared_push h hname hfree).wired .none []
  refine ⟨hagrees.names_eq.trans (names_push), fun key => ?_⟩
  rw [hagrees.entryAt_eq, entryAt, cellAt_push h.wired.indexed hfree, entryAt]

/-- The same of the call. -/
theorem entries_addSheet (h : Valid book) {name : String} (hname : nameFault? name = none)
    (hfree : ¬ book.HasSheet (upper name)) :
    let book' := (Command.addSheet (some name)).apply book
    book'.names = book.names ++ [name] ∧ ∀ key, book'.entryAt key = book.entryAt key := by
  intro book'
  have happend : book' = (book.append name).book := by
    simp only [book', Command.apply, Command.run, addSheet_eq_ok h.wired.indexed hname hfree]
    rfl
  rw [happend]
  exact entries_append h hname hfree

/-- The cells of a sheet that was added can be named. -/
theorem named?_addSheet (h : Valid book) {name : String} (hname : nameFault? name = none)
    (hfree : ¬ book.HasSheet (upper name)) {location : String} {p : Position}
    (hp : Position.ofLocation location = .ok p) :
    ((Command.addSheet (some name)).apply book).named? name location = some (.on name p) :=
  named?_eq_some_iff.2 ⟨by simp [HasSheet, (entries_addSheet h hname hfree).1], p, hp, rfl⟩

/-- A new workbook with one sheet and one content. -/
theorem entries_first_write {name location : String} (hname : nameFault? name = none) {p : Position}
    (hp : Position.ofLocation location = .ok p) (content : Option String) :
    let book := after [.addSheet (some name), .write name location content]
    book.names = [name] ∧
      ∀ key, book.entryAt key = if key = .on name p then Cell.ofContent content else .blank := by
  intro book
  have hfree := not_hasSheet_empty (upper name)
  obtain ⟨hadded, hblank⟩ := entries_addSheet valid_empty hname hfree
  obtain ⟨hnames, hentry⟩ := entries_write (valid_after [.addSheet (some name)]) name location
    content
  have hnamed : (after [.addSheet (some name)]).named? name location = some (.on name p) :=
    named?_addSheet valid_empty hname hfree hp
  refine ⟨hnames.trans hadded, fun key => ?_⟩
  have hempty : (after [.addSheet (some name)]).entryAt key = .blank := by
    refine (hblank key).trans ?_
    simp [entryAt, cellAt, sheetOf?, empty, Cell.unevaluated]
  have hcell : book.entryAt key = _ := hentry key
  rw [hcell, hnamed, hempty]
  simp only [Option.some.injEq, eq_comm]

/-- Deleting a sheet removes its entries. -/
theorem entries_deleteSheet (h : Valid book) {name : String} (hname : book.HasSheet (upper name)) :
    let book' := (Command.deleteSheet name).apply book
    (∀ n, book'.HasSheet n ↔ book.HasSheet n ∧ n ≠ upper name) ∧
      ∀ key, book'.entryAt key = if key.sheet = upper name then .blank else book.entryAt key := by
  intro book'
  obtain ⟨index, sheet, hlocate, hs, hsheet⟩ := locate_of_hasSheet h.wired.indexed hname
  let mid : Workbook := { book.arrange (book.sheets.eraseIdx index) with
    graph := book.graph.disconnectWhere (·.isOn sheet.name) }
  have hdeleted : book' = (mid.settle .none []).1 := by
    simp only [book', Command.apply, Command.run, deleteSheet, hlocate, hs, bind, Except.bind]
    rfl
  have hagrees : Agrees mid (mid.settle .none []).1 :=
    agrees_settle (wired_erase h.wired hs) .none []
  rw [hdeleted]
  refine ⟨fun n => ?_, fun key => ?_⟩
  · rw [hagrees.hasSheet_iff, ← hsheet]
    exact hasSheet_erase h.wired.indexed hs n
  · rw [hagrees.entryAt_eq, entryAt, ← hsheet]
    change ((book.arrange (book.sheets.eraseIdx index)).cellAt key |>.getD .blank).unevaluated = _
    rw [cellAt_erase h.wired.indexed hs]
    split
    · rfl
    · rfl

/-- A formula that was entered is stored, and has a value or none. -/
theorem exists_formula (h : book.Indexed) {key : CellKey} {content : String} {e : Formula.Expr}
    (he : book.entryAt key = .formula content e none) :
    ∃ (index : Nat) (sheet : Sheet) (value : Option CellValue),
      book.sheets[index]? = some sheet ∧ upper sheet.name = key.sheet ∧
      sheet.cell? key.position = some (.formula content e value) := by
  rw [entryAt] at he
  rcases hc : book.cellAt key with _ | cell
  · simp [hc, Cell.unevaluated] at he
  · obtain ⟨sheet, hmem, hname, hcell⟩ := h.cellAt_eq_some_iff.1 hc
    obtain ⟨index, hs⟩ := List.getElem?_of_mem hmem
    rw [hc, Option.getD_some] at he
    cases cell with
    | formula content' e' value =>
      obtain ⟨rfl, rfl⟩ : content' = content ∧ e' = e := by simpa [Cell.unevaluated] using he
      exact ⟨index, sheet, value, hs, hname, hcell⟩
    | _ => simp [Cell.unevaluated] at he

end Spreadsheet.Workbook
