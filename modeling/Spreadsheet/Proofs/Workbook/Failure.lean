import Spreadsheet.Proofs.Workbook.Copy
import Spreadsheet.Proofs.Workbook.Session

/-!
# When calls fail

A call fails for the reasons that a user can see in its arguments and in the list of sheets, and for
no others. The steps that come after its checks cannot fail: the name that a copy gets is always
allowed and free, whatever the name of the original.

Results:
* `IsSheetName` are the rules for names of sheets.
* `Command.Refused` says when a call fails; `exists_run_iff`: the others succeed.
* `failed_calls_change_nothing`: calls in place fail exactly then, and a session is the same after
  a call that failed.
-/

namespace Spreadsheet

/-- A name that a sheet may have. -/
structure IsSheetName (name : String) : Prop where
  ne_empty : name ≠ ""
  no_blank_ends : trim name = name
  no_quotes : '\'' ∉ name.toList ∧ '"' ∉ name.toList
  characters : ∀ c ∈ name.toList, isSheetNameChar c

namespace Workbook

variable {book : Workbook}

theorem isSheetName_iff {name : String} : IsSheetName name ↔ nameFault? name = none := by
  rw [nameFault?_eq_none_iff]
  constructor
  · rintro ⟨hne, htrim, -, hall⟩
    exact ⟨hne, htrim, hall⟩
  · rintro ⟨hne, htrim, hall⟩
    have hquotes : '\'' ∉ name.toList ∧ '"' ∉ name.toList :=
      ⟨fun h => absurd (hall _ h) (by decide), fun h => absurd (hall _ h) (by decide)⟩
    exact ⟨hne, htrim, hquotes, hall⟩

/-! ## Checks -/

theorem exists_bind_iff {ε α β : Type} {x : Except ε α} {f : α → Except ε β}
    (hf : ∀ a, ∃ b, f a = .ok b) : (∃ b, (x >>= f) = .ok b) ↔ ∃ a, x = .ok a := by
  simp only [bind_eq_ok_iff]
  constructor
  · rintro ⟨_, a, ha, -⟩
    exact ⟨a, ha⟩
  · rintro ⟨a, ha⟩
    obtain ⟨b, hb⟩ := hf a
    exact ⟨b, a, ha, hb⟩

theorem exists_map_iff {ε α β : Type} {x : Except ε α} {f : α → β} :
    (∃ b, x.map f = .ok b) ↔ ∃ a, x = .ok a := by
  rcases x with e | a <;> simp [Except.map]

theorem exists_error_iff {ε α : Type} {x : Except ε α} :
    (∃ e, x = .error e) ↔ ¬ ∃ a, x = .ok a := by
  rcases x with e | a <;> simp

section Checks

variable (h : book.Indexed)
include h

theorem exists_locateCell_iff {sheet location : String} :
    (∃ cell, book.locateCell sheet location = .ok cell) ↔
      book.HasSheet (upper sheet) ∧ Position.IsGridAddress (trim location) := by
  simp only [Prod.exists, locateCell_eq_ok_iff, exists_and_left, exists_and_right,
    exists_locate_iff h, Position.exists_ofLocation_iff]

theorem checkName_iff {name : String} :
    book.checkName name = .ok () ↔ IsSheetName name ∧ ¬ book.HasSheet (upper name) := by
  rw [checkName_eq_ok_iff h, isSheetName_iff]

end Checks

end Workbook

namespace Command

/-- The calls that fail: there is no sheet with the name that is given, in any case, or there is one
    already; the name breaks a rule; the place is not in the list; the address is not one of the
    grid. -/
def Refused (book : Workbook) : Command → Prop
  | addSheet none => False
  | addSheet (some name) => ¬ IsSheetName name ∨ book.HasSheet (upper name)
  | deleteSheet name => ¬ book.HasSheet (upper name)
  | renameSheet old new =>
    ¬ book.HasSheet (upper old) ∨ ¬ IsSheetName new ∨ book.HasSheet (upper new)
  | moveSheet name target => ¬ book.HasSheet (upper name) ∨ book.size ≤ target
  | copySheet name => ¬ book.HasSheet (upper name)
  | write sheet location _ =>
    ¬ book.HasSheet (upper sheet) ∨ ¬ Position.IsGridAddress (trim location)
  | listen _ => False

end Command

namespace Workbook

variable {book : Workbook}

section Calls

variable (h : Valid book)
include h

theorem exists_addSheet_iff {name : String} :
    (∃ o, book.addSheet (some name) = .ok o) ↔ IsSheetName name ∧ ¬ book.HasSheet (upper name) := by
  simp only [addSheet_eq_ok_iff h.wired.indexed, isSheetName_iff]
  exact ⟨fun ⟨_, hname, hfree, _⟩ => ⟨hname, hfree⟩, fun ⟨hname, hfree⟩ => ⟨_, hname, hfree, rfl⟩⟩

theorem exists_deleteSheet_iff {name : String} :
    (∃ o, book.deleteSheet name = .ok o) ↔ book.HasSheet (upper name) := by
  rw [← exists_locate_iff h.wired.indexed]
  exact exists_bind_iff fun _ => ⟨_, rfl⟩

theorem exists_renameSheet_iff {old new : String} :
    (∃ o, book.renameSheet old new = .ok o) ↔
      book.HasSheet (upper old) ∧ IsSheetName new ∧ ¬ book.HasSheet (upper new) := by
  rw [← exists_locate_iff h.wired.indexed, ← checkName_iff h.wired.indexed]
  simp only [renameSheet, bind_eq_ok_iff]
  constructor
  · rintro ⟨_, index, hindex, _, hcheck, -⟩
    exact ⟨⟨index, hindex⟩, hcheck⟩
  · rintro ⟨⟨index, hindex⟩, hcheck⟩
    exact ⟨_, index, hindex, (), hcheck, rfl⟩

/-- The name that a copy gets passes all checks, so the calls that a copy is made of succeed. -/
theorem exists_copySheet_iff {name : String} :
    (∃ o, book.copySheet name = .ok o) ↔ book.HasSheet (upper name) := by
  constructor
  · rintro ⟨o, ho⟩
    obtain ⟨index, hindex, -⟩ := bind_eq_ok_iff.1 ho
    exact (exists_locate_iff h.wired.indexed).1 ⟨index, hindex⟩
  · intro hname
    obtain ⟨o, ho, -⟩ := copied_copySheet h hname
    exact ⟨o, ho⟩

theorem exists_write_iff {sheet location : String} {content : Option String} :
    (∃ o, book.write sheet location content = .ok o) ↔
      book.HasSheet (upper sheet) ∧ Position.IsGridAddress (trim location) := by
  rw [← exists_locateCell_iff h.wired.indexed]
  exact exists_bind_iff fun _ => ⟨_, rfl⟩

/-- Every call that is not refused succeeds. -/
theorem exists_run_iff (c : Command) : (∃ r, c.run book = .ok r) ↔ ¬ c.Refused book := by
  cases c with
  | addSheet name =>
    rcases name with _ | name
    · exact ⟨fun _ => id, fun _ => ⟨_, rfl⟩⟩
    · rw [Command.run, exists_map_iff, exists_addSheet_iff h, Command.Refused, not_or, not_not]
  | deleteSheet name =>
    rw [Command.run, exists_map_iff, exists_deleteSheet_iff h, Command.Refused, not_not]
  | renameSheet old new =>
    rw [Command.run, exists_map_iff, exists_renameSheet_iff h, Command.Refused, not_or, not_or,
      not_not, not_not]
  | moveSheet name target =>
    rw [Command.run, exists_map_iff, exists_moveSheet_iff h.wired.indexed, Command.Refused, not_or,
      not_not, not_le]
  | copySheet name =>
    rw [Command.run, exists_map_iff, exists_copySheet_iff h, Command.Refused, not_not]
  | write sheet location content =>
    rw [Command.run, exists_map_iff, exists_write_iff h, Command.Refused, not_or, not_not, not_not]
  | listen listener => exact ⟨fun _ => id, fun _ => ⟨_, rfl⟩⟩

/-! ## Questions -/

theorem exists_content_iff {sheet location : String} :
    (∃ content, book.content sheet location = .ok content) ↔
      book.HasSheet (upper sheet) ∧ Position.IsGridAddress (trim location) := by
  rw [← exists_locateCell_iff h.wired.indexed]
  exact exists_bind_iff fun _ => ⟨_, rfl⟩

theorem exists_value_iff {sheet location : String} :
    (∃ value, book.value sheet location = .ok value) ↔
      book.HasSheet (upper sheet) ∧ Position.IsGridAddress (trim location) := by
  rw [← exists_locateCell_iff h.wired.indexed]
  exact exists_bind_iff fun _ => ⟨_, rfl⟩

theorem exists_extent_iff {name : String} :
    (∃ extent, book.extent name = .ok extent) ↔ book.HasSheet (upper name) := by
  rw [← exists_locate_iff h.wired.indexed]
  exact exists_bind_iff fun _ => ⟨_, rfl⟩

end Calls

end Workbook

/-! ## Sessions -/

/-- A call in place that fails leaves the workbook as it was, with its sheets, its registry, its
    graph and its listeners, and has told nobody anything. -/
theorem Command.eq_of_run_perform {c : Command} {s s' : Session} {e : WorkbookError}
    (h : c.perform.run s = .error e s') : s' = s := by
  rw [run_perform] at h
  rcases hrun : c.run s.book with e' | ⟨book, announcements⟩
  · rw [hrun] at h
    exact (EStateM.Result.error.inj h).2.symm
  · simp [hrun] at h

theorem Command.exists_perform_error_iff (c : Command) (s : Session) :
    (∃ e s', c.perform.run s = .error e s') ↔ ∃ e, c.run s.book = .error e := by
  rw [run_perform]
  rcases c.run s.book with e | ⟨book, announcements⟩ <;> simp

/-- In every session that calls lead to, whether they succeeded or not, a call in place fails
    exactly if it is refused, and a call that fails changes nothing: the workbook is the same, and
    so is all that listeners were told. To be told a content or a value fails exactly if there is no
    such cell of the grid, to be told an extent exactly if there is no such sheet. -/
theorem failed_calls_change_nothing (commands : List Command) :
    let s := Session.after commands
    s.book = Workbook.after commands ∧
    (∀ c : Command,
      ((∃ e s', c.perform.run s = .error e s') ↔ c.Refused s.book) ∧
      ∀ e s', c.perform.run s = .error e s' → s' = s) ∧
    (∀ sheet location,
      ((∃ e, s.book.content sheet location = .error e) ↔
        ¬ s.book.HasSheet (upper sheet) ∨ ¬ Position.IsGridAddress (trim location)) ∧
      ((∃ e, s.book.value sheet location = .error e) ↔
        ¬ s.book.HasSheet (upper sheet) ∨ ¬ Position.IsGridAddress (trim location))) ∧
    ∀ name, (∃ e, s.book.extent name = .error e) ↔ ¬ s.book.HasSheet (upper name) := by
  intro s
  have hbook : s.book = Workbook.after commands := Session.book_after commands
  have h : Workbook.Valid s.book := hbook ▸ Workbook.valid_after commands
  refine ⟨hbook, fun c => ⟨?_, fun _ _ => Command.eq_of_run_perform⟩,
    fun sheet location => ⟨?_, ?_⟩, fun name => ?_⟩
  · rw [Command.exists_perform_error_iff, Workbook.exists_error_iff, Workbook.exists_run_iff h,
      not_not]
  · rw [Workbook.exists_error_iff, Workbook.exists_content_iff h, not_and_or]
  · rw [Workbook.exists_error_iff, Workbook.exists_value_iff h, not_and_or]
  · rw [Workbook.exists_error_iff, Workbook.exists_extent_iff h]

end Spreadsheet
