import Spreadsheet.Proofs.Workbook.Rename

/-!
# Reachable workbooks

Results:
* `Command` are the calls of a user; `Workbook.after` is the workbook after a list of them. A call
  that fails leaves the workbook as it is.
* `edited_run`: what a successful call does, but for copies, which are several edits.
* `valid_after`: reachable workbooks are valid.
-/

namespace Spreadsheet

/-! ## Calls -/

/-- A call on a workbook. -/
inductive Command where
  | addSheet (name : Option String)
  | deleteSheet (name : String)
  | renameSheet (old new : String)
  | moveSheet (name : String) (target : Nat)
  | copySheet (name : String)
  | write (sheet location : String) (content : Option String)
  | listen (listener : String)
deriving DecidableEq, Repr

namespace Command

/-- The workbook after a call and what listeners are told, or why the call fails. -/
def run (book : Workbook) : Command → Except WorkbookError (Workbook × List Announcement)
  | addSheet name => (book.addSheet name).map fun o => (o.book, o.announcements)
  | deleteSheet name => (book.deleteSheet name).map fun o => (o.book, o.announcements)
  | renameSheet old new => (book.renameSheet old new).map fun o => (o.book, o.announcements)
  | moveSheet name target => (book.moveSheet name target).map fun o => (o.book, o.announcements)
  | copySheet name => (book.copySheet name).map fun o => (o.book, o.announcements)
  | write sheet location content =>
    (book.write sheet location content).map fun o => (o.book, o.announcements)
  | listen listener => .ok (book.listen listener, [])

/-- The workbook after a call that may fail. -/
def apply (book : Workbook) (c : Command) : Workbook :=
  match c.run book with
  | .ok (book, _) => book
  | .error _ => book

/-- The listener that a call registers. -/
def registration? : Command → Option String
  | listen listener => some listener
  | _ => none

/-- The values of the cells before a call; those of a renamed sheet are found under its new name. -/
def valuesBefore (book : Workbook) : Command → CellKey → Option CellValue
  | renameSheet old new => book.valuesUnder old new
  | _ => book.valueAt

end Command

namespace Workbook

/-- The workbook after the calls `commands` on an empty one. -/
def after (commands : List Command) : Workbook :=
  commands.foldl Command.apply empty

variable {book book' : Workbook} {announcements : List Announcement}

theorem map_eq_ok_iff {α β ε : Type} {x : Except ε α} {f : α → β} {b : β} :
    x.map f = .ok b ↔ ∃ a, x = .ok a ∧ f a = b := by
  rcases x with e | a <;> simp [Except.map]

/-! ## One call -/

/-- Every call but a copy and a registration is one edit. -/
theorem edited_run (h : Valid book) {c : Command} (hcopy : ∀ name, c ≠ .copySheet name)
    (hlisten : ∀ listener, c ≠ .listen listener) (hrun : c.run book = .ok (book', announcements)) :
    Edited (c.valuesBefore book) book book' announcements := by
  cases c with
  | addSheet name =>
    obtain ⟨o, ho, heq⟩ := map_eq_ok_iff.1 hrun
    cases heq
    exact edited_addSheet h ho
  | deleteSheet name =>
    obtain ⟨o, ho, heq⟩ := map_eq_ok_iff.1 hrun
    cases heq
    exact edited_deleteSheet h ho
  | renameSheet old new =>
    obtain ⟨o, ho, heq⟩ := map_eq_ok_iff.1 hrun
    cases heq
    exact edited_renameSheet h ho
  | moveSheet name target =>
    obtain ⟨o, ho, heq⟩ := map_eq_ok_iff.1 hrun
    cases heq
    exact edited_moveSheet h ho
  | copySheet name => exact absurd rfl (hcopy name)
  | write sheet location content =>
    obtain ⟨o, ho, heq⟩ := map_eq_ok_iff.1 hrun
    cases heq
    exact edited_write h ho
  | listen listener => exact absurd rfl (hlisten listener)

/-- Every call leads from a valid workbook to a valid one, and keeps the listeners but for a new
    one. -/
theorem valid_run (h : Valid book) {c : Command} (hrun : c.run book = .ok (book', announcements)) :
    Valid book' ∧ book'.listeners = book.listeners ++ c.registration?.toList := by
  by_cases hcopy : ∃ name, c = .copySheet name
  · obtain ⟨name, rfl⟩ := hcopy
    obtain ⟨o, ho, heq⟩ := map_eq_ok_iff.1 hrun
    cases heq
    obtain ⟨hvalid, hlisteners⟩ := valid_copySheet h ho
    exact ⟨hvalid, hlisteners.trans (List.append_nil _).symm⟩
  · by_cases hlisten : ∃ listener, c = .listen listener
    · obtain ⟨listener, rfl⟩ := hlisten
      cases hrun
      exact ⟨valid_listen h listener, rfl⟩
    · simp only [not_exists] at hcopy hlisten
      have hedited := edited_run h hcopy hlisten hrun
      refine ⟨hedited.valid, ?_⟩
      cases c with
      | listen listener => exact absurd rfl (hlisten listener)
      | _ => exact hedited.listeners_eq.trans (List.append_nil _).symm

theorem run_listen (book : Workbook) (listener : String) :
    (Command.listen listener).run book = .ok (book.listen listener, []) :=
  rfl

/-- The same of a call that may fail. -/
theorem valid_apply (h : Valid book) (c : Command) :
    Valid (c.apply book) ∧ (c.apply book).listeners = book.listeners ++ c.registration?.toList := by
  rw [Command.apply]
  rcases hrun : c.run book with e | ⟨book', announcements⟩
  · refine ⟨h, ?_⟩
    cases c with
    | listen listener =>
      rw [run_listen] at hrun
      cases hrun
    | _ => exact (List.append_nil _).symm
  · exact valid_run h hrun

/-! ## Many calls -/

theorem valid_foldl_apply (h : Valid book) (commands : List Command) :
    Valid (commands.foldl Command.apply book) ∧
      (commands.foldl Command.apply book).listeners =
        book.listeners ++ commands.filterMap Command.registration? := by
  induction commands generalizing book with
  | nil => exact ⟨h, (List.append_nil _).symm⟩
  | cons c commands ih =>
    obtain ⟨hvalid, hlisteners⟩ := valid_apply h c
    obtain ⟨hrest, hlisteners'⟩ := ih hvalid
    refine ⟨hrest, ?_⟩
    rw [List.foldl_cons, hlisteners', hlisteners, List.append_assoc]
    congr 1
    cases c <;> rfl

/-- Reachable workbooks are valid. -/
theorem valid_after (commands : List Command) : Valid (after commands) :=
  (valid_foldl_apply valid_empty commands).1

/-- Listeners are kept in order of registration, once for each. -/
theorem listeners_after (commands : List Command) :
    (after commands).listeners = commands.filterMap Command.registration? :=
  (valid_foldl_apply valid_empty commands).2

end Workbook

end Spreadsheet
