import Spreadsheet.Proofs.Workbook.Settle

/-!
# Changes are remembered

An edit writes to the same cell several times: contents are replaced, formulas lose their value, get
the circular error, are evaluated. Only the first value and the last one count.

Results:
* `Tracks`: every touched cell has its first value on record, every other cell still has it.
  `Tracks.progress` says that a pass keeps that up.
* `Changed`: a cell of the workbook has another value than before.
* `announced_announce`: listeners are told of the changed cells, of each once, and of nothing else.
-/

namespace Spreadsheet

/-! ## Records -/

namespace Changes

variable {c : Changes} {key : CellKey}

/-- The cells with a value on record are those that were touched, each once. -/
structure Sound (c : Changes) : Prop where
  nodup : c.touched.toList.Nodup
  mem_iff : ∀ key, key ∈ c.touched.toList ↔ c.before.contains key

theorem sound_none : Sound none :=
  ⟨List.nodup_nil, fun key => by simp [none]⟩

theorem touch_of_mem (h : c.Sound) (hkey : key ∈ c.touched.toList) (value : Option CellValue) :
    c.touch key value = c := by
  rw [touch, if_pos ((h.mem_iff key).1 hkey)]

theorem touch_of_not_mem (h : c.Sound) (hkey : key ∉ c.touched.toList)
    (value : Option CellValue) :
    c.touch key value = ⟨c.touched.push key, c.before.insert key value⟩ := by
  rw [touch, if_neg (mt (h.mem_iff key).2 hkey)]

theorem mem_touched_touch (h : c.Sound) (key : CellKey) (value : Option CellValue) (k : CellKey) :
    k ∈ (c.touch key value).touched.toList ↔ k ∈ c.touched.toList ∨ k = key := by
  by_cases hkey : key ∈ c.touched.toList
  · rw [touch_of_mem h hkey]
    constructor
    · exact Or.inl
    · rintro (hk | rfl)
      · exact hk
      · exact hkey
  · rw [touch_of_not_mem h hkey]
    simp

theorem Sound.touch (h : c.Sound) (key : CellKey) (value : Option CellValue) :
    (c.touch key value).Sound := by
  by_cases hkey : key ∈ c.touched.toList
  · rwa [touch_of_mem h hkey]
  · constructor
    · rw [touch_of_not_mem h hkey, Array.toList_push]
      exact List.nodup_append.2 ⟨h.nodup, List.nodup_singleton key, by
        rintro a ha b hb rfl
        exact hkey (List.mem_singleton.1 hb ▸ ha)⟩
    · intro k
      rw [mem_touched_touch h, touch_of_not_mem h hkey, h.mem_iff k]
      rw [Std.HashMap.contains_insert, Bool.or_eq_true, beq_iff_eq, or_comm, eq_comm]

/-- Touching a cell does not change what is on record for the others. -/
theorem valueBefore_touch (h : c.Sound) (key : CellKey) (value : Option CellValue) (k : CellKey) :
    (c.touch key value).valueBefore k =
      if k = key ∧ key ∉ c.touched.toList then value else c.valueBefore k := by
  by_cases hkey : key ∈ c.touched.toList
  · rw [touch_of_mem h hkey, if_neg (fun hk => hk.2 hkey)]
  · rw [touch_of_not_mem h hkey, valueBefore, Std.HashMap.getElem?_insert, valueBefore]
    by_cases hk : k = key
    · simp [hk, hkey]
    · simp [hk, Ne.symm hk]

end Changes

namespace Workbook

/-! ## Tracking -/

/-- Every touched cell has the value `before` on record, and every other cell has it still. -/
structure Tracks (before : CellKey → Option CellValue) (book : Workbook) (changes : Changes) :
    Prop where
  sound : changes.Sound
  valueBefore_eq : ∀ key ∈ changes.touched.toList, changes.valueBefore key = before key
  hasSheet : ∀ key ∈ changes.touched.toList, book.HasSheet key.sheet
  inGrid : ∀ key ∈ changes.touched.toList, key.position.inGrid
  valueAt_eq : ∀ key ∉ changes.touched.toList, book.HasSheet key.sheet →
    book.valueAt key = before key

namespace Tracks

variable {before : CellKey → Option CellValue} {book book' : Workbook} {changes changes' : Changes}

theorem none (h : ∀ key, book.HasSheet key.sheet → book.valueAt key = before key) :
    Tracks before book .none where
  sound := Changes.sound_none
  valueBefore_eq key hkey := by simp [Changes.none] at hkey
  hasSheet key hkey := by simp [Changes.none] at hkey
  inGrid key hkey := by simp [Changes.none] at hkey
  valueAt_eq key _ := h key

/-- A cell is touched before its value changes. -/
theorem touch (h : Tracks before book changes) {key : CellKey} (hsheet : book.HasSheet key.sheet)
    (hgrid : key.position.inGrid) :
    Tracks before book (changes.touch key (book.valueAt key)) where
  sound := h.sound.touch key _
  valueBefore_eq k hk := by
    rw [Changes.valueBefore_touch h.sound]
    split
    · rename_i hfirst
      rw [hfirst.1]
      exact h.valueAt_eq key hfirst.2 hsheet
    · rename_i hlater
      rcases (Changes.mem_touched_touch h.sound key _ k).1 hk with hk | rfl
      · exact h.valueBefore_eq k hk
      · exact h.valueBefore_eq k (by simpa using hlater)
  hasSheet k hk := by
    rcases (Changes.mem_touched_touch h.sound key _ k).1 hk with hk | rfl
    · exact h.hasSheet k hk
    · exact hsheet
  inGrid k hk := by
    rcases (Changes.mem_touched_touch h.sound key _ k).1 hk with hk | rfl
    · exact h.inGrid k hk
    · exact hgrid
  valueAt_eq k hk := by
    rw [Changes.mem_touched_touch h.sound] at hk
    exact h.valueAt_eq k fun hmem => hk (Or.inl hmem)

/-- Only touched cells change. -/
theorem of_valueAt_eq (h : Tracks before book changes)
    (hsheet : ∀ name, book'.HasSheet name ↔ book.HasSheet name)
    (hvalue : ∀ key ∉ changes.touched.toList, book'.valueAt key = book.valueAt key) :
    Tracks before book' changes where
  sound := h.sound
  valueBefore_eq := h.valueBefore_eq
  hasSheet key hkey := (hsheet key.sheet).2 (h.hasSheet key hkey)
  inGrid := h.inGrid
  valueAt_eq key hkey hs := by
    rw [hvalue key hkey]
    exact h.valueAt_eq key hkey ((hsheet key.sheet).1 hs)

/-- A cell is touched and gets another value. -/
theorem touch_of_valueAt_eq (h : Tracks before book changes) {key : CellKey}
    (hkey : book.HasSheet key.sheet) (hgrid : key.position.inGrid)
    (hsheet : ∀ name, book'.HasSheet name ↔ book.HasSheet name)
    (hvalue : ∀ k ≠ key, book'.valueAt k = book.valueAt k) :
    Tracks before book' (changes.touch key (book.valueAt key)) := by
  apply (h.touch hkey hgrid).of_valueAt_eq hsheet
  intro k hk
  apply hvalue
  rintro rfl
  exact hk ((Changes.mem_touched_touch h.sound k _ k).2 (Or.inr rfl))

/-- A pass touches a cell before it gives it a value. -/
theorem progress {off : CellKey → Prop} (h : Tracks before book changes) (hw : WiredOff off book)
    (hp : Progress book changes book' changes') : Tracks before book' changes' := by
  induction hp with
  | refl => exact h
  | @ensure b c key i hp hi _ ih =>
    have hb := (hp.agrees hw.indexed).indexed hw.indexed
    have hagrees := agrees_ensure hb hi key.position
    exact ih.of_valueAt_eq (fun _ => hagrees.hasSheet_iff) fun k _ => valueAt_ensure hb hi _ k
  | @assign b c key i e value hp hi he ih =>
    have hb := (hp.agrees hw.indexed).indexed hw.indexed
    have hagrees := agrees_evaluated hb hi he value
    obtain ⟨cell, hc, -⟩ := exists_cellAt he
    have hnode := hp.node hw key (by rw [hc]; rfl)
    apply ih.touch_of_valueAt_eq (hb.hasSheet_of_cellAt hc) (hw.inGrid key hnode)
    · exact fun _ => hagrees.hasSheet_iff
    · intro k hk
      rw [valueAt_evaluated hb hi he, if_neg hk]

end Tracks

/-! ## What listeners are told -/

/-- The cell is on a sheet of the workbook, and its value is another one than before. -/
def Changed (before : CellKey → Option CellValue) (book : Workbook) (key : CellKey) : Prop :=
  book.HasSheet key.sheet ∧ CellValue.agrees (before key) (book.valueAt key) = false

theorem agrees_self (value : Option CellValue) : CellValue.agrees value value = true := by
  rcases value with _ | (n | s | e) <;> simp [CellValue.agrees, CellValue.same]

variable {before : CellKey → Option CellValue} {book : Workbook} {changes : Changes}

/-- A cell whose value is another one in the end was touched. -/
theorem Tracks.mem_net_iff (h : Tracks before book changes) {key : CellKey} :
    key ∈ changes.net book.valueAt ↔ Changed before book key := by
  rw [Changes.net, List.mem_filter, Bool.not_eq_true', Changed]
  constructor
  · rintro ⟨hkey, hvalue⟩
    exact ⟨h.hasSheet key hkey, by rwa [h.valueBefore_eq key hkey] at hvalue⟩
  · rintro ⟨hsheet, hvalue⟩
    by_cases hkey : key ∈ changes.touched.toList
    · exact ⟨hkey, by rwa [h.valueBefore_eq key hkey]⟩
    · rw [h.valueAt_eq key hkey hsheet, agrees_self] at hvalue
      exact absurd hvalue (by decide)

theorem changedCell?_eq_some_iff (h : book.Indexed) {key : CellKey} {cell : ChangedCell} :
    book.changedCell? key = some cell ↔ ∃ sheet ∈ book.sheets,
      upper sheet.name = key.sheet ∧ cell = ⟨sheet.name, key.position.address⟩ := by
  rw [changedCell?, Option.map_eq_some_iff]
  simp only [h.sheetOf?_eq_some_iff, and_assoc, eq_comm (b := cell)]

/-- Different cells are told apart by the name of their sheet and their address. -/
theorem changedCell?_injective (h : book.Indexed) {k k' : CellKey} {cell : ChangedCell}
    (hk : k.position.inGrid) (hk' : k'.position.inGrid) (hc : book.changedCell? k = some cell)
    (hc' : book.changedCell? k' = some cell) : k = k' := by
  obtain ⟨sheet, -, hname, rfl⟩ := (changedCell?_eq_some_iff h).1 hc
  obtain ⟨sheet', -, hname', heq⟩ := (changedCell?_eq_some_iff h).1 hc'
  obtain ⟨hsame, haddress⟩ := ChangedCell.mk.inj heq
  have hsheet : k.sheet = k'.sheet := by rw [← hname, ← hname', hsame]
  have hposition : k.position = k'.position := Position.address_injective hk hk' haddress
  obtain ⟨name, p⟩ := k
  obtain ⟨name', p'⟩ := k'
  obtain rfl : name = name' := hsheet
  obtain rfl : p = p' := hposition
  rfl

/-- The batch lists the changed cells, each once, by the name of its sheet as the user wrote it and
    by its address. All of them are in the grid, where addresses tell cells apart. -/
structure IsBatch (before : CellKey → Option CellValue) (book : Workbook)
    (batch : List ChangedCell) : Prop where
  nodup : batch.Nodup
  mem_iff : ∀ cell, cell ∈ batch ↔ ∃ sheet ∈ book.sheets, ∃ p : Position,
    Changed before book (.on sheet.name p) ∧ cell = ⟨sheet.name, p.address⟩
  inGrid : ∀ key, Changed before book key → key.position.inGrid

/-- In a workbook with a single sheet the cells of a batch are told by their positions. -/
theorem IsBatch.mem_iff_of_names {batch : List ChangedCell} (hbatch : IsBatch before book batch)
    {name : String} (hnames : book.names = [name]) (cell : ChangedCell) :
    cell ∈ batch ↔
      ∃ p : Position, Changed before book (.on name p) ∧ cell = ⟨name, p.address⟩ := by
  have hname {sheet : Sheet} (hmem : sheet ∈ book.sheets) : sheet.name = name := by
    have hlisted : sheet.name ∈ book.names := List.mem_map_of_mem hmem
    rwa [hnames, List.mem_singleton] at hlisted
  rw [hbatch.mem_iff]
  constructor
  · rintro ⟨sheet, hmem, p, hchanged, rfl⟩
    exact ⟨p, hname hmem ▸ hchanged, by rw [hname hmem]⟩
  · rintro ⟨p, hchanged, rfl⟩
    obtain ⟨sheet, hmem, -⟩ := hasSheet_iff.1 hchanged.1
    exact ⟨sheet, hmem, p, (hname hmem).symm ▸ hchanged, by rw [hname hmem]⟩

/-- Listeners are told of the changed cells in one batch, and of nothing if no cell has changed. -/
def Announced (before : CellKey → Option CellValue) (book : Workbook)
    (announcements : List Announcement) : Prop :=
  ((∀ key, ¬ Changed before book key) ∧ announcements = []) ∨
    ((∃ key, Changed before book key) ∧
      ∃ batch, IsBatch before book batch ∧ announcements = [⟨batch, book⟩])

theorem isBatch_net (hb : book.Indexed) (h : Tracks before book changes) :
    IsBatch before book ((changes.net book.valueAt).filterMap book.changedCell?) := by
  have hgrid (key : CellKey) (hkey : Changed before book key) : key.position.inGrid :=
    h.inGrid key (List.mem_filter.1 (h.mem_net_iff.2 hkey)).1
  refine ⟨?_, fun cell => ?_, hgrid⟩
  · have hkeys : (changes.net book.valueAt).Nodup := h.sound.nodup.filter _
    refine List.Pairwise.filterMap _ ?_ (List.Pairwise.and_mem.1 hkeys)
    rintro k k' ⟨hk, hk', hne⟩ cell hc cell' hc' rfl
    exact hne (changedCell?_injective hb (hgrid k (h.mem_net_iff.1 hk))
      (hgrid k' (h.mem_net_iff.1 hk')) hc hc')
  · simp only [List.mem_filterMap, h.mem_net_iff]
    constructor
    · rintro ⟨key, hkey, hcell⟩
      obtain ⟨sheet, hsheet, hname, hcell⟩ := (changedCell?_eq_some_iff hb).1 hcell
      have heq : CellKey.on sheet.name key.position = key := by
        rw [CellKey.on, hname]
      exact ⟨sheet, hsheet, key.position, heq.symm ▸ hkey, hcell⟩
    · rintro ⟨sheet, hsheet, p, hkey, rfl⟩
      exact ⟨_, hkey, (changedCell?_eq_some_iff hb).2 ⟨sheet, hsheet, rfl, rfl⟩⟩

theorem announced_announce (hb : book.Indexed) (h : Tracks before book changes) :
    Announced before book (book.announce changes) := by
  have hbatch := isBatch_net hb h
  rw [announce]
  by_cases hchanged : ∃ key, Changed before book key
  · refine Or.inr ⟨hchanged, _, hbatch, ?_⟩
    obtain ⟨key, hkey⟩ := hchanged
    obtain ⟨sheet, hsheet, hname⟩ := hasSheet_iff.1 hkey.1
    have heq : CellKey.on sheet.name key.position = key := by
      rw [CellKey.on, hname]
    have hmem := (hbatch.mem_iff _).2 ⟨sheet, hsheet, key.position, heq.symm ▸ hkey, rfl⟩
    rw [if_neg]
    rw [List.isEmpty_iff]
    exact List.ne_nil_of_mem hmem
  · simp only [not_exists] at hchanged
    refine Or.inl ⟨hchanged, if_pos ?_⟩
    rw [List.isEmpty_iff, List.eq_nil_iff_forall_not_mem]
    intro cell hcell
    obtain ⟨sheet, -, p, hkey, -⟩ := (hbatch.mem_iff cell).1 hcell
    exact hchanged _ hkey

end Workbook

end Spreadsheet
