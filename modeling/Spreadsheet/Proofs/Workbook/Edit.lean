import Spreadsheet.Proofs.Workbook.Changes
import Spreadsheet.Proofs.Workbook.Sheets

/-!
# Edits of cells and of the list of sheets

Every edit prepares the workbook and then settles it. `Prepared` is what the preparation leaves to
do: the graph mirrors the formulas again, and all changes so far are on record.

Results:
* `Valid`: the graph mirrors the formulas, every node has been dealt with, and the names of the
  sheets break no rule.
* `edited_write`, `edited_addSheet`, `edited_deleteSheet`, `edited_moveSheet`: an edit leads from a
  valid workbook to a valid one, and listeners are told of the changes.
* `valid_copySheet`, `valid_listen`: so do the other calls, but for what listeners are told.
-/

namespace Spreadsheet.Workbook

variable {book book' : Workbook}

/-! ## Valid workbooks -/

/-- The graph mirrors the formulas; every formula is current and every node on a sheet has a cell.
    No name of a sheet breaks a rule. -/
structure Valid (book : Workbook) : Prop where
  wired : Wired book
  settled : ∀ key ∈ book.graph.keys, book.Settled key
  allowed : ∀ name ∈ book.names, nameFault? name = none

theorem Valid.current (h : Valid book) (key : CellKey) : book.Current key := by
  intro e he
  obtain ⟨cell, hc, -⟩ := exists_cellAt he
  exact (h.settled key (h.wired.node key (by rw [hc]; rfl))).2 e he

theorem valid_empty : Valid empty :=
  ⟨wired_empty, fun key hkey => by
    simp [empty, EmptyCollection.emptyCollection, DependencyGraph.empty, DependencyGraph.keys]
      at hkey, by simp [empty, names]⟩

/-- What an edit makes of a workbook whose cells had the values `before`: a valid workbook with the
    same listeners, who are told of the changes. -/
structure Edited (before : CellKey → Option CellValue) (book book' : Workbook)
    (announcements : List Announcement) : Prop where
  valid : Valid book'
  announced : Announced before book' announcements
  listeners_eq : book'.listeners = book.listeners

/-- The workbook has been edited and has yet to be settled. -/
structure Prepared (before : CellKey → Option CellValue) (book book' : Workbook)
    (changes : Changes) : Prop where
  wired : Wired book'
  tracks : Tracks before book' changes
  listeners_eq : book'.listeners = book.listeners
  allowed : ∀ name ∈ book'.names, nameFault? name = none

variable {before : CellKey → Option CellValue} {changes : Changes}

/-- Settling completes an edit. -/
theorem Prepared.settle (h : Prepared before book book' changes) (written : List CellKey) :
    Edited before book (book'.settle changes written).1 (book'.settle changes written).2 := by
  obtain ⟨hprogress, hsettled⟩ := settle_spec h.wired changes written
  have hw := hprogress.wired h.wired
  rw [settle_eq]
  have hagrees := hprogress.agrees h.wired.indexed
  refine ⟨⟨hw, fun key hkey => hsettled key ?_, ?_⟩, ?_, ?_⟩
  · rwa [hprogress.graph_eq] at hkey
  · rw [hagrees.names_eq]
    exact h.allowed
  · exact announced_announce hw.indexed (h.tracks.progress h.wired hprogress)
  · exact hagrees.listeners_eq.trans h.listeners_eq

/-- An edit that changes no value tells nobody. -/
theorem announced_nil (h : ∀ key, book.valueAt key = before key) : Announced before book [] := by
  refine Or.inl ⟨fun key hkey => ?_, rfl⟩
  rw [Changed, h key, agrees_self] at hkey
  exact absurd hkey.2 (by decide)

/-! ## Writing a cell -/

theorem valueAt_of_getElem? (h : book.Indexed) {index : Nat} {sheet : Sheet}
    (hs : book.sheets[index]? = some sheet) (p : Position) :
    book.valueAt (.on sheet.name p) = sheet.value? p := by
  rw [valueAt, h.cellAt_eq (List.mem_of_getElem? hs) rfl]
  rfl

/-- A cell is written, and every other cell stays. -/
theorem cellAt_write (h : book.Indexed) {index : Nat} {sheet : Sheet}
    (hs : book.sheets[index]? = some sheet) (p : Position) (content : Option String)
    (key : CellKey) :
    (book.modifySheet index (·.write p content)).cellAt key =
      if key = .on sheet.name p then some (Cell.ofContent content) else book.cellAt key :=
  (cellEdit_write p content).cellAt h ((h _ index).2 ⟨sheet, hs, rfl⟩) key

theorem wiredOff_write (h : Wired book) {index : Nat} {sheet : Sheet}
    (hs : book.sheets[index]? = some sheet) {p : Position} (hp : p.inGrid)
    (content : Option String) :
    WiredOff (· = .on sheet.name p)
      { book.modifySheet index (·.write p content) with
        graph := book.graph.add (.on sheet.name p) } := by
  have hcell := cellAt_write h.indexed hs p content
  have hkeys (key : CellKey) : key ∈ (book.graph.add (.on sheet.name p)).keys ↔
      key ∈ book.graph.keys ∨ key = .on sheet.name p := by
    rw [DependencyGraph.keys_add h.graph, DependencyGraph.mem_insertKey]
  have he := cellEdit_write p content
  constructor
  · exact he.indexed h.indexed index
  · exact h.graph.add _
  · exact sound_modifySheet h.sound fun _ _ hsound => hsound.write p content
  · intro key hkey
    have hsame : (book.modifySheet index (·.write p content)).readsAt key = book.readsAt key := by
      rw [readsAt_eq, hcell, if_neg hkey, ← readsAt_eq]
    have hsources :
        (book.graph.add (.on sheet.name p)).sourcesOf key = book.graph.sourcesOf key := by
      rw [DependencyGraph.sourcesOf, DependencyGraph.edges_add h.graph, DependencyGraph.sourcesOf]
    exact hsources.trans ((h.sourcesOf_eq key (by simp)).trans (congrArg _ hsame.symm))
  · intro key hkey
    rcases (hkeys key).1 hkey with hkey | rfl
    · exact h.inGrid key hkey
    · exact hp
  · intro key hkey
    apply (hkeys key).2
    by_cases heq : key = .on sheet.name p
    · exact Or.inr heq
    · have hstored : ((book.modifySheet index (·.write p content)).cellAt key).isSome := hkey
      rw [hcell, if_neg heq] at hstored
      exact Or.inl (h.node key hstored)

/-- A written cell is on record, and linked. -/
theorem prepared_write (h : Valid book) {index : Nat} {sheet : Sheet}
    (hs : book.sheets[index]? = some sheet) {p : Position} (hp : p.inGrid)
    (content : Option String) :
    Prepared book.valueAt book
      (link { book.modifySheet index (·.write p content) with
        graph := book.graph.add (.on sheet.name p) } (.on sheet.name p))
      (Changes.none.touch (.on sheet.name p) (sheet.value? p)) := by
  have hwired := wiredOff_write h.wired hs hp content
  have hkey : CellKey.on sheet.name p ∈ (book.graph.add (.on sheet.name p)).keys := by
    rw [DependencyGraph.keys_add h.wired.graph, DependencyGraph.mem_insertKey]
    exact Or.inr rfl
  have hlinked := linked_link hwired hkey
  have hnames : (link { book.modifySheet index (·.write p content) with
      graph := book.graph.add (.on sheet.name p) } (.on sheet.name p)).names = book.names :=
    hlinked.agrees.names_eq.trans ((cellEdit_write p content).names_eq book index)
  refine ⟨(hwired.link hkey).mono fun _ hoff => hoff.2 hoff.1, ?_, hlinked.agrees.listeners_eq, ?_⟩
  · rw [← valueAt_of_getElem? h.wired.indexed hs]
    have hsheet : book.HasSheet (CellKey.on sheet.name p).sheet :=
      hasSheet_iff.2 ⟨sheet, List.mem_of_getElem? hs, rfl⟩
    apply (Tracks.none fun _ _ => rfl).touch_of_valueAt_eq hsheet hp
    · intro name
      rw [HasSheet, hnames, HasSheet]
    · intro key hne
      rw [hlinked.valueAt_eq]
      change (book.modifySheet index (·.write p content)).valueAt key = _
      rw [valueAt, cellAt_write h.wired.indexed hs, if_neg hne]
      rfl
  · rw [hnames]
    exact h.allowed

theorem writeAt_eq {index : Nat} {sheet : Sheet} (hs : book.sheets[index]? = some sheet)
    (p : Position) (content : Option String) :
    book.writeAt index p content =
      (link { book.modifySheet index (·.write p content) with
        graph := book.graph.add (.on sheet.name p) } (.on sheet.name p)).settle
        (Changes.none.touch (.on sheet.name p) (sheet.value? p)) [.on sheet.name p] := by
  rw [writeAt, hs]
  rfl

theorem edited_writeAt (h : Valid book) (index : Nat) {p : Position} (hp : p.inGrid)
    (content : Option String) :
    Edited book.valueAt book (book.writeAt index p content).1 (book.writeAt index p content).2 := by
  rcases hs : book.sheets[index]? with _ | sheet
  · rw [writeAt, hs]
    exact ⟨h, announced_nil fun _ => rfl, rfl⟩
  · rw [writeAt_eq hs]
    exact (prepared_write h hs hp content).settle _

theorem bind_eq_ok_iff {ε α β : Type} {x : Except ε α} {f : α → Except ε β} {b : β} :
    (x >>= f) = .ok b ↔ ∃ a, x = .ok a ∧ f a = .ok b := by
  rcases x with e | a <;> simp [bind, Except.bind]

theorem locate_eq_ok_iff (h : book.Indexed) {name : String} {index : Nat} :
    book.locate name = .ok index ↔
      ∃ sheet, book.sheets[index]? = some sheet ∧ upper sheet.name = upper name := by
  rw [← h (upper name) index, locate, position?]
  rcases book.registry[upper name]? with _ | i <;> simp

theorem locateCell_eq_ok_iff {name location : String} {index : Nat} {p : Position} :
    book.locateCell name location = .ok (index, p) ↔
      book.locate name = .ok index ∧ Position.ofLocation location = .ok p := by
  rw [locateCell]
  rcases book.locate name with e | i
  · simp [bind, Except.bind]
  · rcases Position.ofLocation location with e | q <;> simp [bind, Except.bind]

/-- A write that succeeds is one at a place of the list of sheets. -/
theorem exists_writeAt_of_write (h : book.Indexed) {name location : String}
    {content : Option String} {o : Outcome Unit} (ho : book.write name location content = .ok o) :
    ∃ (index : Nat) (sheet : Sheet) (p : Position),
      book.sheets[index]? = some sheet ∧ upper sheet.name = upper name ∧
      Position.ofLocation location = .ok p ∧
      book.writeAt index p content = (o.book, o.announcements) := by
  obtain ⟨⟨index, p⟩, hcell, ho⟩ := bind_eq_ok_iff.1 ho
  obtain ⟨hlocate, hp⟩ := locateCell_eq_ok_iff.1 hcell
  obtain ⟨sheet, hs, hsheet⟩ := (locate_eq_ok_iff h).1 hlocate
  obtain rfl := Except.ok.inj ho
  exact ⟨index, sheet, p, hs, hsheet, hp, rfl⟩

/-- A write prepares the workbook and settles it. -/
theorem exists_prepared_of_write (h : Valid book) {name location : String}
    {content : Option String} {o : Outcome Unit} (ho : book.write name location content = .ok o) :
    ∃ (p : Position) (b : Workbook) (value : Option CellValue),
      book.HasSheet (upper name) ∧ Position.ofLocation location = .ok p ∧
      Prepared book.valueAt book b (Changes.none.touch (.on name p) value) ∧
      b.settle (Changes.none.touch (.on name p) value) [.on name p] =
        (o.book, o.announcements) := by
  obtain ⟨index, sheet, p, hs, hsheet, hp, hwrite⟩ := exists_writeAt_of_write h.wired.indexed ho
  have hon : CellKey.on sheet.name p = .on name p := by rw [CellKey.on, CellKey.on, hsheet]
  have hprepared := prepared_write h hs (Position.inGrid_of_ofLocation hp) content
  rw [writeAt_eq hs] at hwrite
  rw [hon] at hprepared hwrite
  exact ⟨p, _, _, hasSheet_iff.2 ⟨sheet, List.mem_of_getElem? hs, hsheet⟩, hp, hprepared, hwrite⟩

theorem edited_write (h : Valid book) {name location : String} {content : Option String}
    {o : Outcome Unit} (ho : book.write name location content = .ok o) :
    Edited book.valueAt book o.book o.announcements := by
  obtain ⟨p, b, value, -, -, hprepared, hsettle⟩ := exists_prepared_of_write h ho
  have hedited := hprepared.settle [.on name p]
  rwa [hsettle] at hedited

/-! ## Adding a sheet -/

/-- The cells decide. -/
theorem WiredOff.of_cellAt_eq {off : CellKey → Prop} (h : WiredOff off book) (hi : book'.Indexed)
    (hsound : ∀ sheet ∈ book'.sheets, sheet.Sound)
    (hcells : ∀ key, book'.cellAt key = book.cellAt key) (hgraph : book'.graph = book.graph) :
    WiredOff off book' where
  indexed := hi
  graph := hgraph ▸ h.graph
  sound := hsound
  sourcesOf_eq key hkey := by
    rw [hgraph, h.sourcesOf_eq key hkey, readsAt_eq, readsAt_eq, hcells]
  inGrid := hgraph ▸ h.inGrid
  node key hkey := by
    rw [hcells] at hkey
    exact hgraph ▸ h.node key hkey

theorem prepared_push (h : Valid book) {name : String} (hname : nameFault? name = none)
    (hfree : ¬ book.HasSheet (upper name)) :
    Prepared book.valueAt book (book.push name) .none := by
  have hi := h.wired.indexed
  have hcells := cellAt_push hi hfree
  refine ⟨h.wired.of_cellAt_eq (indexed_push hi hfree) ?_ hcells rfl, .none ?_, rfl, ?_⟩
  · intro sheet hmem
    rcases List.mem_append.1 hmem with hmem | hmem
    · exact h.wired.sound sheet hmem
    · rw [List.mem_singleton.1 hmem]
      exact Sheet.sound_named name
  · intro key _
    rw [valueAt, hcells, valueAt]
  · intro other hother
    rw [names_push] at hother
    rcases List.mem_append.1 hother with hother | hother
    · exact h.allowed other hother
    · rw [List.mem_singleton.1 hother]
      exact hname

theorem edited_append (h : Valid book) {name : String} (hname : nameFault? name = none)
    (hfree : ¬ book.HasSheet (upper name)) :
    Edited book.valueAt book (book.append name).book (book.append name).announcements :=
  (prepared_push h hname hfree).settle []

theorem checkName_eq_ok_iff (h : book.Indexed) {name : String} :
    book.checkName name = .ok () ↔ nameFault? name = none ∧ ¬ book.HasSheet (upper name) := by
  rw [checkName, h.hasSheet_iff_registry, position?, ← Option.isSome_iff_exists]
  rcases nameFault? name with _ | fault
  · by_cases htaken : (book.registry[upper name]?).isSome <;> simp [htaken]
  · simp

/-- A sheet is added under a name exactly if the name may be given. -/
theorem addSheet_eq_ok_iff (h : book.Indexed) {name : String} {o : Outcome (Nat × String)} :
    book.addSheet (some name) = .ok o ↔
      nameFault? name = none ∧ ¬ book.HasSheet (upper name) ∧ o = book.append name := by
  rw [← and_assoc, ← checkName_eq_ok_iff h, addSheet]
  rcases book.checkName name with e | _ <;> simp [eq_comm]

/-- Adding a sheet prepares the workbook and settles it. -/
theorem exists_prepared_of_addSheet (h : Valid book) {name : Option String}
    {o : Outcome (Nat × String)} (ho : book.addSheet name = .ok o) :
    ∃ b, Prepared book.valueAt book b .none ∧ b.settle .none [] = (o.book, o.announcements) := by
  rcases name with _ | name
  · obtain rfl := Except.ok.inj ho
    exact ⟨_, prepared_push h (nameFault?_numbered_sheet _)
      (freeName_free h.wired.indexed "Sheet"), rfl⟩
  · obtain ⟨hname, hfree, rfl⟩ := (addSheet_eq_ok_iff h.wired.indexed).1 ho
    exact ⟨_, prepared_push h hname hfree, rfl⟩

theorem edited_addSheet (h : Valid book) {name : Option String} {o : Outcome (Nat × String)}
    (ho : book.addSheet name = .ok o) : Edited book.valueAt book o.book o.announcements := by
  obtain ⟨b, hprepared, hsettle⟩ := exists_prepared_of_addSheet h ho
  have hedited := hprepared.settle []
  rwa [hsettle] at hedited

/-! ## Deleting a sheet -/

theorem wired_erase (h : Wired book) {index : Nat} {gone : Sheet}
    (hs : book.sheets[index]? = some gone) :
    Wired { book.arrange (book.sheets.eraseIdx index) with
      graph := book.graph.disconnectWhere (·.isOn gone.name) } := by
  have hcells := cellAt_erase h.indexed hs
  constructor
  · exact indexed_erase h.indexed index
  · exact h.graph.disconnectWhere _
  · exact fun sheet hmem => h.sound sheet (List.mem_of_mem_eraseIdx hmem)
  · intro key _
    change (book.graph.disconnectWhere (·.isOn gone.name)).sourcesOf key =
      ((book.arrange (book.sheets.eraseIdx index)).readsAt key : Multiset CellKey)
    rw [readsAt_eq, hcells, DependencyGraph.sourcesOf,
      DependencyGraph.edges_disconnectWhere h.graph, Multiset.filter_filter]
    by_cases hkey : key.sheet = upper gone.name
    · rw [if_pos hkey, Multiset.filter_eq_nil.2]
      · rfl
      · rintro e - ⟨rfl, hon⟩
        simp [CellKey.isOn, hkey] at hon
    · rw [if_neg hkey, ← readsAt_eq, ← h.sourcesOf_eq key (by simp), DependencyGraph.sourcesOf]
      congr 1
      apply Multiset.filter_congr
      rintro e -
      constructor
      · exact And.left
      · rintro rfl
        exact ⟨rfl, by simpa [CellKey.isOn] using hkey⟩
  · intro key hkey
    rw [DependencyGraph.keys_disconnectWhere] at hkey
    exact h.inGrid key hkey
  · intro key hkey
    rw [DependencyGraph.keys_disconnectWhere]
    have hstored : ((book.arrange (book.sheets.eraseIdx index)).cellAt key).isSome := hkey
    rw [hcells] at hstored
    split at hstored
    · simp at hstored
    · exact h.node key hstored

theorem prepared_erase (h : Valid book) {index : Nat} {gone : Sheet}
    (hs : book.sheets[index]? = some gone) :
    Prepared book.valueAt book
      { book.arrange (book.sheets.eraseIdx index) with
        graph := book.graph.disconnectWhere (·.isOn gone.name) } .none := by
  refine ⟨wired_erase h.wired hs, .none ?_, rfl, ?_⟩
  · intro key hkey
    have hsheet := ((hasSheet_erase h.wired.indexed hs key.sheet).1 hkey).2
    change (book.arrange (book.sheets.eraseIdx index)).valueAt key = _
    rw [valueAt, cellAt_erase h.wired.indexed hs, if_neg hsheet]
    rfl
  · intro other hother
    obtain ⟨sheet, hmem, rfl⟩ := List.mem_map.1 hother
    exact h.allowed _ (List.mem_map_of_mem (List.mem_of_mem_eraseIdx hmem))

/-- Deleting a sheet prepares the workbook and settles it. -/
theorem exists_prepared_of_deleteSheet (h : Valid book) {name : String} {o : Outcome Unit}
    (ho : book.deleteSheet name = .ok o) :
    ∃ b, Prepared book.valueAt book b .none ∧ b.settle .none [] = (o.book, o.announcements) := by
  obtain ⟨index, hindex, ho⟩ := bind_eq_ok_iff.1 ho
  obtain ⟨gone, hs, -⟩ := (locate_eq_ok_iff h.wired.indexed).1 hindex
  simp only [hs, Option.elim_some] at ho
  obtain rfl := Except.ok.inj ho
  exact ⟨_, prepared_erase h hs, rfl⟩

theorem edited_deleteSheet (h : Valid book) {name : String} {o : Outcome Unit}
    (ho : book.deleteSheet name = .ok o) : Edited book.valueAt book o.book o.announcements := by
  obtain ⟨b, hprepared, hsettle⟩ := exists_prepared_of_deleteSheet h ho
  have hedited := hprepared.settle []
  rwa [hsettle] at hedited

/-! ## Moving a sheet -/

/-- What a formula sees follows from the names of the sheets and the values. -/
theorem view_congr (hsheet : ∀ name, book'.HasSheet name ↔ book.HasSheet name)
    (hvalue : ∀ key, book'.valueAt key = book.valueAt key) (home : String) :
    book'.view home = book.view home := by
  simp only [view, hsheet, hvalue]

theorem Valid.of_cellAt_eq (h : Valid book) (hi : book'.Indexed)
    (hsound : ∀ sheet ∈ book'.sheets, sheet.Sound) (hnames : book'.names.Perm book.names)
    (hcells : ∀ key, book'.cellAt key = book.cellAt key) (hgraph : book'.graph = book.graph) :
    Valid book' := by
  have hvalue (key : CellKey) : book'.valueAt key = book.valueAt key := by
    rw [valueAt, hcells, valueAt]
  have hsheet (name : String) : book'.HasSheet name ↔ book.HasSheet name :=
    (hnames.map upper).mem_iff
  refine ⟨h.wired.of_cellAt_eq hi hsound hcells hgraph, fun key hkey => ?_,
    fun name hname => h.allowed name (hnames.mem_iff.1 hname)⟩
  rw [hgraph] at hkey
  obtain ⟨hplace, hcurrent⟩ := h.settled key hkey
  refine ⟨fun hs => ?_, fun e he => ?_⟩
  · rw [hcells]
    exact hplace ((hsheet _).1 hs)
  · rw [hgraph, hvalue, view_congr hsheet hvalue]
    apply hcurrent e
    rwa [formulaAt, hcells] at he

/-- A move succeeds iff there is the sheet and the place, and nobody is told of it. -/
theorem moveSheet_eq_ok_iff (h : book.Indexed) {name : String} {target : Nat} {o : Outcome Unit} :
    book.moveSheet name target = .ok o ↔
      ∃ i sheet, book.position? name = some i ∧ book.sheets[i]? = some sheet ∧
        target < book.size ∧
        o = ⟨(), book.arrange ((book.sheets.eraseIdx i).insertIdx target sheet), []⟩ := by
  rw [moveSheet, locate]
  rcases hposition : book.position? name with _ | i
  · simp [bind, Except.bind]
  · obtain ⟨sheet, hs, -⟩ := h.position?_eq_some_iff.1 hposition
    by_cases htarget : target < book.size
    · have hle : ¬ book.size ≤ target := by omega
      simp [bind, Except.bind, hs, htarget, hle, arrange, pure, Except.pure, eq_comm]
    · have hle : book.size ≤ target := by omega
      simp [bind, Except.bind, htarget, hle]

theorem edited_moveSheet (h : Valid book) {name : String} {target : Nat} {o : Outcome Unit}
    (ho : book.moveSheet name target = .ok o) :
    Edited book.valueAt book o.book o.announcements := by
  obtain ⟨i, sheet, -, hs, htarget, rfl⟩ := (moveSheet_eq_ok_iff h.wired.indexed).1 ho
  have hperm := perm_insertIdx_eraseIdx hs htarget
  have hcells := cellAt_perm h.wired.indexed hperm
  refine ⟨h.of_cellAt_eq (indexed_perm h.wired.indexed hperm)
    (fun s hmem => h.wired.sound s (hperm.mem_iff.1 hmem)) (hperm.map Sheet.name) hcells rfl,
    announced_nil fun key => ?_, rfl⟩
  change (book.arrange _).valueAt key = _
  rw [valueAt, hcells, valueAt]

/-! ## Copying a sheet -/

theorem valid_foldl_paste (index : Nat) {entries : List (Position × String)}
    (hentries : ∀ entry ∈ entries, entry.1.inGrid) {state : Workbook × List Announcement}
    (h : Valid state.1) :
    Valid (entries.foldl (paste index) state).1 ∧
      (entries.foldl (paste index) state).1.listeners = state.1.listeners := by
  induction entries generalizing state with
  | nil => exact ⟨h, rfl⟩
  | cons entry entries ih =>
    have hedited := edited_writeAt h index (hentries entry List.mem_cons_self) (some entry.2)
    have hnext : Valid (paste index state entry).1 := hedited.valid
    obtain ⟨hvalid, hlisteners⟩ := ih (fun e he => hentries e (List.mem_cons_of_mem _ he)) hnext
    exact ⟨hvalid, hlisteners.trans hedited.listeners_eq⟩

/-- A copy that succeeds has added a sheet and written the contents of the original to it. -/
theorem copySheet_eq_ok (h : Valid book) {name : String} {o : Outcome (Nat × String)}
    (ho : book.copySheet name = .ok o) :
    ∃ source ∈ book.sheets, ∃ added : Outcome (Nat × String),
      book.addSheet (some (book.freeName (source.name ++ "_"))) = .ok added ∧
      (∀ entry ∈ source.contents, entry.1.inGrid) ∧
      (o.book, o.announcements) =
        source.contents.foldl (paste added.result.1) (added.book, added.announcements) := by
  obtain ⟨index, hindex, ho⟩ := bind_eq_ok_iff.1 ho
  obtain ⟨source, hs, -⟩ := (locate_eq_ok_iff h.wired.indexed).1 hindex
  have hmem := List.mem_of_getElem? hs
  simp only [hs, Option.getD_some] at ho
  obtain ⟨added, hadd, ho⟩ := bind_eq_ok_iff.1 ho
  obtain rfl := Except.ok.inj ho
  refine ⟨source, hmem, added, hadd, ?_, rfl⟩
  rintro ⟨p, content⟩ hentry
  obtain ⟨cell, hcell, -⟩ := Option.bind_eq_some_iff.1 (Sheet.mem_contents_iff.1 hentry)
  have hstored : book.cellAt (.on source.name p) = some cell := by
    rw [h.wired.indexed.cellAt_eq hmem rfl]
    exact hcell
  exact h.wired.inGrid_of_cellAt hstored

theorem valid_copySheet (h : Valid book) {name : String} {o : Outcome (Nat × String)}
    (ho : book.copySheet name = .ok o) : Valid o.book ∧ o.book.listeners = book.listeners := by
  obtain ⟨source, -, added, hadd, hgrid, hpaste⟩ := copySheet_eq_ok h ho
  have hadded := edited_addSheet h hadd
  have hstart : Valid (added.book, added.announcements).1 := hadded.valid
  obtain ⟨hvalid, hlisteners⟩ := valid_foldl_paste added.result.1 hgrid hstart
  rw [← hpaste] at hvalid hlisteners
  exact ⟨hvalid, hlisteners.trans hadded.listeners_eq⟩

/-! ## One listener more -/

theorem valid_listen (h : Valid book) (listener : String) : Valid (book.listen listener) :=
  h.of_cellAt_eq h.wired.indexed h.wired.sound (List.Perm.refl _) (fun _ => rfl) rfl

end Spreadsheet.Workbook
