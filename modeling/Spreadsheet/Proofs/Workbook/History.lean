import Spreadsheet.Proofs.Workbook.Entries
import Spreadsheet.Proofs.Workbook.Mirror

/-!
# What was entered decides

A workbook is known by the names of its sheets and by what was entered into its cells. Nothing else
of its history shows: neither the order of the sheets nor nodes and places that were left behind.

Results:
* `SameEntries.valueAt_eq`: valid workbooks with the same entries have the same values, for all
  cells of one mirror those of the other.
* `sameEntries_write_write`: edits of different cells commute.
* `sameEntries_retype`: a sheet can be deleted, added and typed in again.
* `history_independent`: reachable workbooks with the same contents look alike.
-/

namespace Spreadsheet.Workbook

variable {book book' : Workbook}

/-! ## The same entries -/

/-- The workbooks have sheets of the same names with the same entries. -/
structure SameEntries (book book' : Workbook) : Prop where
  hasSheet_iff : ∀ name, book.HasSheet name ↔ book'.HasSheet name
  entryAt_eq : ∀ key, book.entryAt key = book'.entryAt key

/-- An entry follows from its content. -/
theorem entryAt_eq_ofContent (h : Wired book) (key : CellKey) :
    book.entryAt key = Cell.ofContent (book.entryAt key).content? := by
  rw [entryAt, Cell.content?_unevaluated]
  rcases hc : book.cellAt key with _ | cell
  · rfl
  · exact h.canonical hc

/-- Only cells of the grid have an entry. -/
theorem entryAt_eq_blank (h : Wired book) {key : CellKey}
    (hkey : ¬ (book.HasSheet key.sheet ∧ key.position.inGrid)) : book.entryAt key = .blank := by
  have hcell : book.cellAt key = none := by
    rcases hc : book.cellAt key with _ | cell
    · rfl
    · exact absurd ⟨h.indexed.hasSheet_of_cellAt hc, h.inGrid_of_cellAt hc⟩ hkey
  rw [entryAt, hcell]
  rfl

/-- What a user sees of the contents decides. -/
theorem sameEntries_of_content (h : Wired book) (h' : Wired book')
    (hnames : ∀ name, name ∈ book.names.map upper ↔ name ∈ book'.names.map upper)
    (hcontents : ∀ name location, book.content name location = book'.content name location) :
    SameEntries book book' := by
  refine ⟨hnames, fun key => ?_⟩
  by_cases hkey : book.HasSheet key.sheet ∧ key.position.inGrid
  · have hupper := upper_of_hasSheet hkey.1
    have hsheet : book.HasSheet (upper key.sheet) := hupper.symm ▸ hkey.1
    have hsheet' : book'.HasSheet (upper key.sheet) := (hnames _).1 hsheet
    have hcontent := hcontents key.sheet key.position.address
    rw [content_eq h.indexed, content_eq h'.indexed, answer, answer, if_pos hsheet, if_pos hsheet',
      Position.ofLocation_address hkey.2] at hcontent
    have hsame := Except.ok.inj hcontent
    rw [on_of_upper hupper] at hsame
    rw [entryAt_eq_ofContent h, entryAt_eq_ofContent h']
    exact congrArg Cell.ofContent hsame
  · have hkey' : ¬ (book'.HasSheet key.sheet ∧ key.position.inGrid) := fun hand =>
      hkey ⟨(hnames _).2 hand.1, hand.2⟩
    rw [entryAt_eq_blank h hkey, entryAt_eq_blank h' hkey']

namespace SameEntries

variable (hs : SameEntries book book')
include hs

theorem content_eq (h : book.Indexed) (h' : book'.Indexed) (name location : String) :
    book.content name location = book'.content name location := by
  rw [Workbook.content_eq h, Workbook.content_eq h', answer, answer]
  simp only [hs.hasSheet_iff, hs.entryAt_eq]

/-- Sheets of one name have the same contents. -/
theorem content?_eq (h : book.Indexed) (h' : book'.Indexed) {sheet sheet' : Sheet}
    (hmem : sheet ∈ book.sheets) (hmem' : sheet' ∈ book'.sheets)
    (hname : upper sheet.name = upper sheet'.name) (p : Position) :
    sheet.content? p = sheet'.content? p := by
  have hentry := congrArg Cell.content? (hs.entryAt_eq (.on sheet.name p))
  rwa [content?_entryAt h hmem rfl, content?_entryAt h' hmem' hname.symm] at hentry

variable (h : Valid book) (h' : Valid book')
include h h'

/-- Valid workbooks with the same entries have the same values. -/
theorem valueAt_eq (key : CellKey) : book.valueAt key = book'.valueAt key := by
  have hmirrored : Mirrored id (fun _ => True) book book' :=
    mirrored_of_entryAt_eq h.wired h'.wired (fun key _ => hs.hasSheet_iff key.sheet)
      (fun _ _ _ _ => trivial) fun key _ => (hs.entryAt_eq key).symm
  exact (hmirrored.valueAt_eq h h' trivial).symm

theorem value_eq (name location : String) :
    book.value name location = book'.value name location := by
  have hvalues : book.valueAt = book'.valueAt := funext (hs.valueAt_eq h h')
  rw [Workbook.value_eq h.wired.indexed, Workbook.value_eq h'.wired.indexed, answer, answer,
    hvalues]
  simp only [hs.hasSheet_iff]

theorem extent_eq (name : String) : book.extent name = book'.extent name := by
  by_cases hname : book.HasSheet (upper name)
  · exact extent_congr h'.wired h.wired ((hs.hasSheet_iff _).1 hname) hname
      fun p => hs.entryAt_eq (.on name p)
  · have hname' : ¬ book'.HasSheet (upper name) := mt (hs.hasSheet_iff _).2 hname
    simp only [extent, locate_of_not_hasSheet h.wired.indexed hname,
      locate_of_not_hasSheet h'.wired.indexed hname', bind, Except.bind]

end SameEntries

/-! ## Edits of different cells -/

theorem named?_congr (hnames : book'.names = book.names) (name location : String) :
    book'.named? name location = book.named? name location := by
  simp only [named?, hasSheet_congr hnames]

/-- Edits of different cells commute. -/
theorem sameEntries_write_write (h : Valid book) {s₁ l₁ s₂ l₂ : String} (c₁ c₂ : Option String)
    (hdiffer : ∀ key, ¬ (book.named? s₁ l₁ = some key ∧ book.named? s₂ l₂ = some key)) :
    SameEntries ([.write s₁ l₁ c₁, .write s₂ l₂ c₂].foldl Command.apply book)
      ([.write s₂ l₂ c₂, .write s₁ l₁ c₁].foldl Command.apply book) := by
  have hfirst := entries_write h s₁ l₁ c₁
  have hfirst' := entries_write h s₂ l₂ c₂
  have hsecond := entries_write (valid_apply h (.write s₁ l₁ c₁)).1 s₂ l₂ c₂
  have hsecond' := entries_write (valid_apply h (.write s₂ l₂ c₂)).1 s₁ l₁ c₁
  constructor
  · intro name
    simp only [List.foldl_cons, List.foldl_nil]
    rw [hasSheet_congr (hsecond.1.trans hfirst.1), hasSheet_congr (hsecond'.1.trans hfirst'.1)]
  · intro key
    simp only [List.foldl_cons, List.foldl_nil]
    rw [hsecond.2, hsecond'.2, hfirst.2, hfirst'.2, named?_congr hfirst.1, named?_congr hfirst'.1]
    by_cases h₁ : book.named? s₁ l₁ = some key
    · have h₂ : book.named? s₂ l₂ ≠ some key := fun h₂ => hdiffer key ⟨h₁, h₂⟩
      rw [if_neg h₂, if_pos h₁, if_pos h₁]
    · rw [if_neg h₁, if_neg h₁]

/-! ## Typing a sheet in again -/

/-- The call that types a content in. -/
def typed (name : String) (entry : Position × String) : Command :=
  .write name entry.1.address (some entry.2)

/-- Contents are typed in one after the other; in the end every cell has the entry that it should
    have. -/
theorem foldl_typed_spec {name : String} {target : CellKey → Cell}
    {entries : List (Position × String)} (h : Valid book) (hsheet : book.HasSheet (upper name))
    (hentries : ∀ entry ∈ entries, entry.1.inGrid ∧
      Cell.ofContent (some entry.2) = target (.on name entry.1))
    (hothers : ∀ key, (∀ entry ∈ entries, key ≠ .on name entry.1) →
      book.entryAt key = target key) :
    ((entries.map (typed name)).foldl Command.apply book).names = book.names ∧
      ∀ key, ((entries.map (typed name)).foldl Command.apply book).entryAt key = target key := by
  induction entries generalizing book with
  | nil => exact ⟨rfl, fun key => hothers key (by simp)⟩
  | cons entry entries ih =>
    obtain ⟨hgrid, htarget⟩ := hentries entry List.mem_cons_self
    have hnamed : book.named? name entry.1.address = some (.on name entry.1) :=
      named?_eq_some_iff.2 ⟨hsheet, _, Position.ofLocation_address hgrid, rfl⟩
    obtain ⟨hnames, hentry⟩ := entries_write h name entry.1.address (some entry.2)
    rw [hnamed] at hentry
    have hstep : ∀ key, (∀ other ∈ entries, key ≠ .on name other.1) →
        ((typed name entry).apply book).entryAt key = target key := by
      intro key hkey
      rw [typed, hentry]
      by_cases heq : key = .on name entry.1
      · rw [if_pos (congrArg some heq.symm), htarget, heq]
      · rw [if_neg fun hsame => heq (Option.some.inj hsame).symm]
        apply hothers key
        intro other hother
        rcases List.mem_cons.1 hother with rfl | hother
        · exact heq
        · exact hkey other hother
    obtain ⟨hnames', hentry'⟩ := ih (valid_apply h (typed name entry)).1
      ((hasSheet_congr hnames _).2 hsheet)
      (fun other hother => hentries other (List.mem_cons_of_mem _ hother)) hstep
    exact ⟨hnames'.trans hnames, hentry'⟩

/-- The contents of a sheet are the entries that are not blank. -/
theorem mem_contents_iff_entryAt (h : Wired book) {sheet : Sheet} (hmem : sheet ∈ book.sheets)
    {p : Position} {content : String} :
    (p, content) ∈ sheet.contents ↔
      (book.entryAt (.on sheet.name p)).content? = some content := by
  rw [Sheet.mem_contents_iff, content?_entryAt h.indexed hmem rfl]
  rfl

/-- Typing a content of a sheet in makes its entry. -/
theorem ofContent_of_mem_contents (h : Wired book) {sheet : Sheet} (hmem : sheet ∈ book.sheets)
    {p : Position} {content : String} (hcontent : (p, content) ∈ sheet.contents) :
    p.inGrid ∧ Cell.ofContent (some content) = book.entryAt (.on sheet.name p) := by
  rw [mem_contents_iff_entryAt h hmem] at hcontent
  have hentry := entryAt_eq_ofContent h (.on sheet.name p)
  rw [hcontent] at hentry
  refine ⟨?_, hentry.symm⟩
  by_contra hgrid
  have hkey : ¬ (book.HasSheet (CellKey.on sheet.name p).sheet ∧
      (CellKey.on sheet.name p).position.inGrid) := fun hand => hgrid hand.2
  rw [entryAt_eq_blank h hkey] at hcontent
  simp [Cell.content?] at hcontent

/-- A cell of a sheet that is not among its contents is blank. -/
theorem entryAt_eq_blank_of_not_mem (h : Wired book) {sheet : Sheet} (hmem : sheet ∈ book.sheets)
    {key : CellKey} (hsheet : key.sheet = upper sheet.name)
    (hkey : ∀ entry ∈ sheet.contents, key ≠ .on sheet.name entry.1) :
    book.entryAt key = .blank := by
  have heq : CellKey.on sheet.name key.position = key := by
    rw [CellKey.on, ← hsheet]
  have hempty : (book.entryAt key).content? = none := by
    rw [Option.eq_none_iff_forall_ne_some]
    intro content hsome
    rw [← heq, ← mem_contents_iff_entryAt h hmem] at hsome
    exact hkey _ hsome heq.symm
  rw [entryAt_eq_ofContent h, hempty]
  rfl

/-- A sheet that is deleted, added again and typed in again in any order has all its entries. -/
theorem sameEntries_retype (h : Valid book) {sheet : Sheet} (hmem : sheet ∈ book.sheets)
    {entries : List (Position × String)} (hperm : entries.Perm sheet.contents) :
    SameEntries book
      ((.deleteSheet sheet.name :: .addSheet (some sheet.name) ::
        entries.map (typed sheet.name)).foldl Command.apply book) := by
  have hsheet : book.HasSheet (upper sheet.name) := hasSheet_iff.2 ⟨sheet, hmem, rfl⟩
  have hallowed := h.allowed sheet.name (List.mem_map_of_mem hmem)
  have hdeleted := entries_deleteSheet h hsheet
  have hvalidDeleted := (valid_apply h (.deleteSheet sheet.name)).1
  have hfree : ¬ ((Command.deleteSheet sheet.name).apply book).HasSheet (upper sheet.name) :=
    fun hn => ((hdeleted.1 _).1 hn).2 rfl
  have hadded := entries_addSheet hvalidDeleted hallowed hfree
  have hvalidAdded := (valid_apply hvalidDeleted (.addSheet (some sheet.name))).1
  have hothers : ∀ key, (∀ entry ∈ entries, key ≠ .on sheet.name entry.1) →
      ((Command.addSheet (some sheet.name)).apply
        ((Command.deleteSheet sheet.name).apply book)).entryAt key = book.entryAt key := by
    intro key hkey
    rw [hadded.2, hdeleted.2]
    split
    · -- a cell of the sheet that is not typed in was blank
      rename_i hon
      exact (entryAt_eq_blank_of_not_mem h.wired hmem hon fun entry hentry =>
        hkey entry (hperm.mem_iff.2 hentry)).symm
    · rfl
  have hsheets (n : String) : ((Command.addSheet (some sheet.name)).apply
      ((Command.deleteSheet sheet.name).apply book)).HasSheet n ↔
        ((Command.deleteSheet sheet.name).apply book).HasSheet n ∨ n = upper sheet.name := by
    simp [HasSheet, hadded.1]
  obtain ⟨hnames, hentry⟩ := foldl_typed_spec hvalidAdded ((hsheets _).2 (Or.inr rfl))
    (fun entry hentry => ofContent_of_mem_contents h.wired hmem (hperm.mem_iff.1 hentry)) hothers
  constructor
  · intro n
    rw [List.foldl_cons, List.foldl_cons, hasSheet_congr hnames, hsheets, hdeleted.1]
    by_cases hn : n = upper sheet.name
    · simp [hn, hsheet]
    · simp [hn]
  · intro key
    exact (hentry key).symm

/-! ## Reachable workbooks -/

/-- A user sees the same contents, values and extents. -/
structure LooksLike (book book' : Workbook) : Prop where
  content_eq : ∀ name location, book.content name location = book'.content name location
  value_eq : ∀ name location, book.value name location = book'.value name location
  extent_eq : ∀ name, book.extent name = book'.extent name

theorem SameEntries.looksLike (hs : SameEntries book book') (h : Valid book) (h' : Valid book') :
    LooksLike book book' :=
  ⟨hs.content_eq h.wired.indexed h'.wired.indexed, hs.value_eq h h', hs.extent_eq h h'⟩

/-- The values and extents of a reachable workbook follow from the names of its sheets and their
    contents. So edits of two different cells may change places, and a sheet may be deleted, added
    again under its name and typed in again in any order. -/
theorem history_independent :
    (∀ commands commands' : List Command,
      (∀ name, name ∈ (after commands).names.map upper ↔
        name ∈ (after commands').names.map upper) →
      (∀ name location,
        (after commands).content name location = (after commands').content name location) →
      LooksLike (after commands) (after commands')) ∧
    (∀ (commands : List Command) (s₁ l₁ s₂ l₂ : String) (c₁ c₂ : Option String),
      (∀ p, Position.ofLocation l₁ = .ok p → Position.ofLocation l₂ = .ok p →
        upper s₁ ≠ upper s₂) →
      LooksLike (after (commands ++ [.write s₁ l₁ c₁, .write s₂ l₂ c₂]))
        (after (commands ++ [.write s₂ l₂ c₂, .write s₁ l₁ c₁]))) ∧
    ∀ (commands : List Command) (sheet : Sheet) (entries : List (Position × String)),
      sheet ∈ (after commands).sheets → entries.Perm sheet.contents →
      LooksLike (after commands)
        (after (commands ++
          .deleteSheet sheet.name :: .addSheet (some sheet.name) ::
            entries.map (typed sheet.name))) := by
  refine ⟨?_, ?_, ?_⟩
  · intro commands commands' hnames hcontents
    have h := valid_after commands
    have h' := valid_after commands'
    exact (sameEntries_of_content h.wired h'.wired hnames hcontents).looksLike h h'
  · intro commands s₁ l₁ s₂ l₂ c₁ c₂ hdiffer
    have h := valid_after (commands ++ [.write s₁ l₁ c₁, .write s₂ l₂ c₂])
    have h' := valid_after (commands ++ [.write s₂ l₂ c₂, .write s₁ l₁ c₁])
    rw [after, List.foldl_append] at h h' ⊢
    rw [after, List.foldl_append]
    refine (sameEntries_write_write (valid_after commands) c₁ c₂ ?_).looksLike h h'
    rintro key ⟨h₁, h₂⟩
    obtain ⟨-, p, hp, rfl⟩ := named?_eq_some_iff.1 h₁
    obtain ⟨-, q, hq, heq⟩ := named?_eq_some_iff.1 h₂
    obtain ⟨hsheet, rfl⟩ := CellKey.mk.inj heq
    exact hdiffer q hp hq hsheet.symm
  · intro commands sheet entries hmem hperm
    have h := valid_after commands
    have h' := valid_after (commands ++
      .deleteSheet sheet.name :: .addSheet (some sheet.name) :: entries.map (typed sheet.name))
    rw [after, List.foldl_append] at h'
    rw [after, after, List.foldl_append]
    exact (sameEntries_retype h hmem hperm).looksLike h h'

/-- A formula may be typed in before the cell that it reads. -/
theorem history_independent_write_write :
    LooksLike
      (after [.addSheet (some "A"), .write "A" "A1" (some "x"), .write "A" "B1" (some "=A1")])
      (after [.addSheet (some "A"), .write "A" "B1" (some "=A1"), .write "A" "A1" (some "x")]) := by
  refine history_independent.2.1 [.addSheet (some "A")] "A" "A1" "A" "B1" _ _ ?_
  intro p hp hq
  have hA : Position.ofLocation "A1" = .ok ⟨0, 0⟩ := rfl
  have hB : Position.ofLocation "B1" = .ok ⟨0, 1⟩ := rfl
  rw [hA] at hp
  rw [hB, ← hp] at hq
  exact absurd hq (by decide)

end Spreadsheet.Workbook
