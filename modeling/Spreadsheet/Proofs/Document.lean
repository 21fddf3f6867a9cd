import Spreadsheet.Document
import Spreadsheet.Proofs.Json.RoundTrip
import Spreadsheet.Proofs.Workbook.History

/-!
# A saved workbook is loaded back

A document holds names and contents only. They are read back from the text, the names are given to
empty sheets, and the contents are typed in one after the other: a formula may come before the cells
that it reads, and the members of a cycle come in any order. What was entered decides what a user
sees, so it is enough that every call succeeds and that in the end the entries are the same.

Results:
* `savedSheets_document`: a document is read as the names and contents of the workbook.
* `Replayed`: the workbook so far has the sheets that have been added and the entries that have been
  typed in, and no others. One call adds one of them (`Replayed.addSaved`, `Replayed.writeSaved`),
  and loading adds them all.
* `ofDocument_document`: a workbook is made again from its document.
* `readsBack_document`: the text of a document is read as this document.
* `load_save`: a reachable workbook is loaded back from its text, and is saved as this text again.
-/

namespace Spreadsheet

/-! ## Folds that do not fail -/

/-- A fold of steps that succeed does so; `P` relates what has been done to the state. -/
theorem exists_foldlM {α σ ε : Type} {f : σ → α → Except ε σ} {P : List α → σ → Prop}
    {items : List α} {s : σ} (hstart : P [] s)
    (hstep : ∀ done a rest s, items = done ++ a :: rest → P done s →
      ∃ s', f s a = .ok s' ∧ P (done ++ [a]) s') :
    ∃ s', items.foldlM f s = .ok s' ∧ P items s' := by
  have hrest : ∀ rest done s, items = done ++ rest → P done s →
      ∃ s', rest.foldlM f s = .ok s' ∧ P items s' := by
    intro rest
    induction rest with
    | nil =>
      intro done s hitems hdone
      rw [List.append_nil] at hitems
      exact ⟨s, rfl, hitems ▸ hdone⟩
    | cons a rest ih =>
      intro done s hitems hdone
      obtain ⟨s', hf, hdone'⟩ := hstep done a rest s hitems hdone
      rw [List.append_cons] at hitems
      obtain ⟨t, hfold, hall⟩ := ih (done ++ [a]) s' hitems hdone'
      exact ⟨t, by rw [List.foldlM_cons, hf]; exact hfold, hall⟩
  exact hrest items [] s rfl hstart

/-! ## Reading a document -/

/-- What a document says of a sheet. -/
def Sheet.saved (s : Sheet) : SavedSheet :=
  ⟨s.name, s.contents.map fun (p, content) => (p.address, .string content)⟩

namespace Workbook

variable {book book' : Workbook}

theorem savedSheets_document (book : Workbook) :
    savedSheets book.document = .ok (book.sheets.map Sheet.saved) := by
  have hmapM (sheets : List Sheet) (k : Nat) :
      ((sheets.map Sheet.document).zipIdx k).mapM (fun item => SavedSheet.ofJson item.2 item.1) =
        .ok (sheets.map Sheet.saved) := by
    induction sheets generalizing k with
    | nil => rfl
    | cons sheet sheets ih =>
      have hsheet : SavedSheet.ofJson k sheet.document = .ok sheet.saved := rfl
      simp only [List.map_cons, List.zipIdx_cons, List.mapM_cons, hsheet, ih, bind, Except.bind,
        pure, Except.pure]
  exact hmapM book.sheets 0

/-! ## Replaying a workbook -/

/-- The workbook `b` has sheets with these names and, of the entries of `book`, those of the cells
    `keys`. -/
structure Replayed (book : Workbook) (names : List String) (keys : List CellKey) (b : Workbook) :
    Prop where
  valid : Valid b
  names_eq : b.names = names
  entryAt_eq : ∀ key, b.entryAt key = if key ∈ keys then book.entryAt key else .blank

theorem replayed_empty (book : Workbook) : Replayed book [] [] empty := by
  refine ⟨valid_empty, rfl, fun key => ?_⟩
  rw [if_neg List.not_mem_nil]
  exact entryAt_eq_blank wired_empty fun hkey => not_hasSheet_empty _ hkey.1

/-! ## Adding the sheets -/

/-- A sheet is added if its name breaks no rule and is free. -/
theorem Replayed.addSaved {names : List String} {keys : List CellKey} {b : Workbook}
    (hb : Replayed book names keys b) (sheet : SavedSheet) (hname : nameFault? sheet.name = none)
    (hfree : upper sheet.name ∉ names.map upper) :
    ∃ b', b.addSaved sheet = .ok b' ∧ Replayed book (names ++ [sheet.name]) keys b' := by
  rw [← hb.names_eq] at hfree
  obtain ⟨hnames, hentry⟩ := entries_append hb.valid hname hfree
  refine ⟨(b.append sheet.name).book, ?_, (edited_append hb.valid hname hfree).valid, ?_, ?_⟩
  · rw [Workbook.addSaved, addSheet_eq_ok hb.valid.wired.indexed hname hfree]
  · rw [hnames, hb.names_eq]
  · exact fun key => (hentry key).trans (hb.entryAt_eq key)

/-- All sheets are added. -/
theorem replayed_addSheets (h : Valid book) :
    ∃ b, (book.sheets.map Sheet.saved).foldlM Workbook.addSaved empty = .ok b ∧
      Replayed book book.names [] b := by
  rw [List.foldlM_map]
  refine exists_foldlM (P := fun done => Replayed book (done.map Sheet.name) [])
    (replayed_empty book) ?_
  intro done sheet rest b hsheets hb
  have hmem : sheet ∈ book.sheets := by simp [hsheets]
  have hdistinct := h.wired.indexed.nodup_names
  rw [names, hsheets, List.map_append, List.map_cons, List.map_append, List.map_cons,
    List.nodup_middle, List.nodup_cons, List.mem_append, not_or] at hdistinct
  rw [List.map_append, List.map_singleton]
  exact hb.addSaved sheet.saved (h.allowed _ (List.mem_map_of_mem hmem)) hdistinct.1.1

/-! ## Typing the contents in -/

/-- The cells of a sheet that have content. -/
def occupiedKeys (sheet : Sheet) : List CellKey :=
  sheet.occupied.map (.on sheet.name)

section Replay

variable {keys : List CellKey} {b : Workbook} {sheet : Sheet} (h : Wired book)
  (hb : Replayed book book.names keys b) (hmem : sheet ∈ book.sheets)
include h hb hmem

/-- A content is typed in, and its cell gets its entry. -/
theorem Replayed.writeSaved {p : Position} {content : String}
    (hcontent : (p, content) ∈ sheet.contents) :
    ∃ b', b.writeSaved sheet.name (p.address, .string content) = .ok b' ∧
      Replayed book book.names (keys ++ [.on sheet.name p]) b' := by
  obtain ⟨hgrid, hentry⟩ := ofContent_of_mem_contents h hmem hcontent
  have hsheet : b.HasSheet (upper sheet.name) := by
    rw [HasSheet, hb.names_eq]
    exact hasSheet_iff.2 ⟨sheet, hmem, rfl⟩
  have hnamed : b.named? sheet.name p.address = some (.on sheet.name p) :=
    named?_eq_some_iff.2 ⟨hsheet, p, Position.ofLocation_address hgrid, rfl⟩
  obtain ⟨result, hrun, hnames, hwritten⟩ := run_write hb.valid hnamed (some content)
  obtain ⟨o, ho, rfl⟩ := map_eq_ok_iff.1 hrun
  refine ⟨o.book, ?_, (edited_write hb.valid ho).valid, hnames.trans hb.names_eq, ?_⟩
  · simp only [Workbook.writeSaved, orError, Json.string?, ho, bind, Except.bind]
  · intro key
    rw [hwritten]
    by_cases hkey : key = .on sheet.name p
    · rw [if_pos hkey, if_pos (by simp [hkey]), hentry, hkey]
    · rw [if_neg hkey, hb.entryAt_eq]
      simp only [List.mem_append, List.mem_singleton, hkey, or_false]

/-- The contents of a sheet are typed in. -/
theorem Replayed.writeSheet :
    ∃ b', b.writeSheet sheet.saved = .ok b' ∧
      Replayed book book.names (keys ++ occupiedKeys sheet) b' := by
  rw [Workbook.writeSheet, Sheet.saved, List.foldlM_map, occupiedKeys, Sheet.occupied,
    List.map_map]
  refine exists_foldlM (P := fun done => Replayed book book.names
    (keys ++ done.map (CellKey.on sheet.name ∘ Prod.fst))) (by simpa using hb) ?_
  intro done entry rest b' hcontents hb'
  have hentry : entry ∈ sheet.contents := by simp [hcontents]
  rw [List.map_append, ← List.append_assoc]
  exact hb'.writeSaved h hmem hentry

end Replay

/-- The contents of all sheets are typed in. -/
theorem Replayed.writeSheets (h : Wired book) {b : Workbook} (hb : Replayed book book.names [] b) :
    ∃ b', (book.sheets.map Sheet.saved).foldlM Workbook.writeSheet b = .ok b' ∧
      Replayed book book.names (book.sheets.flatMap occupiedKeys) b' := by
  rw [List.foldlM_map]
  refine exists_foldlM (P := fun done => Replayed book book.names (done.flatMap occupiedKeys)) hb ?_
  intro done sheet rest b' hsheets hb'
  have hmem : sheet ∈ book.sheets := by simp [hsheets]
  rw [List.flatMap_append, List.flatMap_singleton]
  exact hb'.writeSheet h hmem

/-- Every entry is that of a cell with content, or blank. -/
theorem entryAt_eq_blank_of_not_mem_occupiedKeys (h : Wired book) {key : CellKey}
    (hkey : key ∉ book.sheets.flatMap occupiedKeys) : book.entryAt key = .blank := by
  by_cases hsheet : book.HasSheet key.sheet
  · obtain ⟨sheet, hmem, hname⟩ := hasSheet_iff.1 hsheet
    refine entryAt_eq_blank_of_not_mem h hmem hname.symm ?_
    rintro entry hentry rfl
    exact hkey (List.mem_flatMap.2
      ⟨sheet, hmem, List.mem_map_of_mem (List.mem_map_of_mem hentry)⟩)
  · exact entryAt_eq_blank h fun hand => hsheet hand.1

/-- When all contents have been typed in, the entries are the same. -/
theorem Replayed.sameEntries (h : Wired book) {b : Workbook}
    (hb : Replayed book book.names (book.sheets.flatMap occupiedKeys) b) : SameEntries b book := by
  refine ⟨fun name => by rw [HasSheet, hb.names_eq, HasSheet], fun key => ?_⟩
  rw [hb.entryAt_eq]
  split
  · rfl
  · rename_i hkey
    exact (entryAt_eq_blank_of_not_mem_occupiedKeys h hkey).symm

/-! ## Saving again -/

/-- The name of a sheet and what was typed into it. -/
def listing (sheet : Sheet) : String × List (Position × String) :=
  (sheet.name, sheet.contents)

/-- Workbooks with the same names in the same order and the same entries list their contents
    alike. -/
theorem SameEntries.listing_eq (hs : SameEntries book' book) (h' : book'.Indexed)
    (h : book.Indexed) (hnames : book'.names = book.names) :
    book'.sheets.map listing = book.sheets.map listing := by
  apply List.ext_getElem?
  intro i
  have hname := congrArg (·[i]?) hnames
  simp only [names, List.getElem?_map] at hname ⊢
  rcases hi' : book'.sheets[i]? with _ | sheet'
  · rcases hi : book.sheets[i]? with _ | sheet
    · rfl
    · simp [hi, hi'] at hname
  · rcases hi : book.sheets[i]? with _ | sheet
    · simp [hi, hi'] at hname
    · rw [hi, hi'] at hname
      have heq : sheet'.name = sheet.name := Option.some.inj hname
      have hcontents := Sheet.contents_eq (hs.content?_eq h' h (List.mem_of_getElem? hi')
        (List.mem_of_getElem? hi) (congrArg upper heq))
      simp only [Option.map_some, listing, heq, hcontents]

/-- What is saved follows from the names and the contents. -/
theorem document_congr (hlisting : book'.sheets.map listing = book.sheets.map listing) :
    book'.document = book.document := by
  have hdocument (b : Workbook) : b.document = .object [("sheets",
      .array ((b.sheets.map listing).map fun (name, contents) =>
        .object [("name", .string name), ("cell-contents",
          .object (contents.map fun (p, content) => (p.address, .string content)))]))] := by
    rw [document, List.map_map]
    rfl
  rw [hdocument, hdocument, hlisting]

/-- The document of a valid workbook, whatever its text may be, is made into a workbook that has the
    same list of sheets with the same contents, looks the same to a user, and is saved as this
    document again. -/
theorem ofDocument_document (h : Valid book) :
    ∃ book', ofDocument book.document = .ok book' ∧
      book'.names = book.names ∧
      book'.sheets.map Sheet.contents = book.sheets.map Sheet.contents ∧
      LooksLike book' book ∧
      book'.document = book.document := by
  obtain ⟨named, hadd, hnamed⟩ := replayed_addSheets h
  obtain ⟨book', hwrite, hreplayed⟩ := hnamed.writeSheets h.wired
  have hs := hreplayed.sameEntries h.wired
  have hlisting := hs.listing_eq hreplayed.valid.wired.indexed h.wired.indexed hreplayed.names_eq
  refine ⟨book', ?_, hreplayed.names_eq, ?_, hs.looksLike hreplayed.valid h,
    document_congr hlisting⟩
  · simp only [ofDocument, savedSheets_document, hadd, hwrite, bind, Except.bind]
  · have hcontents := congrArg (List.map Prod.snd) hlisting
    rw [List.map_map, List.map_map] at hcontents
    exact hcontents

/-! ## The text of a document -/

/-- Different contents of a sheet have different addresses. -/
theorem addresses_nodup (h : Wired book) {sheet : Sheet} (hmem : sheet ∈ book.sheets) :
    (sheet.occupied.map Position.address).Nodup := by
  have hgrid : ∀ p ∈ sheet.occupied, p.inGrid := by
    intro p hp
    obtain ⟨⟨q, content⟩, hcontent, rfl⟩ := List.mem_map.1 hp
    exact (ofContent_of_mem_contents h hmem hcontent).1
  exact sheet.occupied_nodup.map_on fun p hp q hq =>
    Position.address_injective (hgrid p hp) (hgrid q hq)

/-- Four levels of nesting are enough for a document. -/
theorem readsBack_document (h : Wired book) : Json.ReadsBack Json.maxDepth book.document := by
  have hcontents (sheet : Sheet) (hmem : sheet ∈ book.sheets) (n : Nat) :
      Json.ReadsBack (n + 1) (.object sheet.saved.contents) := by
    have hkeys : sheet.saved.contents.map Prod.fst = sheet.occupied.map Position.address := by
      rw [Sheet.saved, Sheet.occupied, List.map_map, List.map_map]
      rfl
    refine Json.readsBack_object (hkeys ▸ addresses_nodup h hmem) fun m hm => ?_
    obtain ⟨entry, -, rfl⟩ := List.mem_map.1 hm
    exact Json.readsBack_string n entry.2
  have hsheet (sheet : Sheet) (hmem : sheet ∈ book.sheets) (n : Nat) :
      Json.ReadsBack (n + 2) sheet.document := by
    refine Json.readsBack_object (by simp) ?_
    simp only [List.forall_mem_cons]
    exact ⟨Json.readsBack_string _ _, hcontents sheet hmem n, by simp⟩
  have hsheets (n : Nat) : Json.ReadsBack (n + 3) (.array (book.sheets.map Sheet.document)) := by
    refine Json.readsBack_array fun v hv => ?_
    obtain ⟨sheet, hmem, rfl⟩ := List.mem_map.1 hv
    exact hsheet sheet hmem n
  refine Json.readsBack_object (n := 126) (by simp) ?_
  simp only [List.forall_mem_singleton]
  exact hsheets 123

/-- The text of a saved workbook that is reachable is loaded. The workbook that is loaded has the
    same list of sheets with the same contents and no others, a user sees the same contents, values
    and extents, and saved again it is the same text. -/
theorem load_save (commands : List Command) :
    let book := after commands
    ∃ book', load book.save = .ok book' ∧
      book'.names = book.names ∧
      book'.sheets.map Sheet.contents = book.sheets.map Sheet.contents ∧
      LooksLike book' book ∧
      book'.save = book.save := by
  intro book
  have h : Valid book := valid_after commands
  obtain ⟨book', hmade, hnames, hcontents, hlooks, hdocument⟩ := ofDocument_document h
  refine ⟨book', ?_, hnames, hcontents, hlooks, congrArg Json.pretty hdocument⟩
  rw [load, save, (readsBack_document h.wired).parse?_pretty]
  exact hmade

end Workbook

end Spreadsheet
