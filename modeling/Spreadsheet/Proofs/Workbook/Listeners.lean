import Spreadsheet.Proofs.Workbook.Entries

/-!
# Listeners of reachable workbooks

Results:
* `deliver_noting`: every registration is called once, in order, whether or not calls fail.
* `net_changes_delivered`: after a call every registration has been given one batch, which holds the
  cells whose value has changed, each once; nobody is called if there are none.
-/

namespace Spreadsheet

/-! ## Calls that fail -/

namespace Announcement

section

variable {ε σ : Type} (call : String → Announcement → EStateM ε σ Unit)

/-- The call of a listener, with a note of what the listener was given. The note is made whether or
    not the call fails. -/
def noting (listener : String) (a : Announcement) :
    EStateM ε (σ × List (String × List ChangedCell)) Unit := fun (state, notes) =>
  match call listener a state with
  | .ok _ state => .ok () (state, notes ++ [(listener, a.batch)])
  | .error e state => .error e (state, notes ++ [(listener, a.batch)])

/-- Every registration is called once and in order. The notes change nothing else. -/
theorem deliver_noting (a : Announcement) (state : σ) (notes : List (String × List ChangedCell)) :
    a.deliver (noting call) (state, notes) = (a.deliver call state, notes ++ a.deliveries) := by
  rw [deliver, deliver, deliveries]
  induction a.book.listeners generalizing state notes with
  | nil => rw [List.foldl_nil, List.foldl_nil, List.map_nil, List.append_nil]
  | cons listener listeners ih =>
    rw [List.foldl_cons, List.foldl_cons, List.map_cons, List.append_cons]
    rcases hcall : call listener a state with ⟨_, state'⟩ | ⟨e, state'⟩
    · simp only [noting, hcall]
      exact ih state' _
    · simp only [noting, hcall]
      exact ih state' _

theorem deliverAll_noting (announcements : List Announcement) (state : σ)
    (notes : List (String × List ChangedCell)) :
    deliverAll (noting call) announcements (state, notes) =
      (deliverAll call announcements state, notes ++ announcements.flatMap deliveries) := by
  rw [deliverAll, deliverAll]
  induction announcements generalizing state notes with
  | nil => rw [List.foldl_nil, List.foldl_nil, List.flatMap_nil, List.append_nil]
  | cons a announcements ih =>
    rw [List.foldl_cons, List.foldl_cons, List.flatMap_cons, deliver_noting, ih, List.append_assoc]

end

end Announcement

namespace Workbook

variable {book : Workbook} {announcements : List Announcement}

/-! ## Reachable workbooks -/

/-- What listeners are given after a successful call on a reachable workbook, other than a copy and
    a registration. If no value has changed, nobody is called; otherwise all registrations are
    called in order, each once, and are given the same batch of the changed cells. Calls that fail
    make no difference. -/
theorem net_changes_delivered (commands : List Command) {c : Command}
    (hcopy : ∀ name, c ≠ .copySheet name) (hlisten : ∀ listener, c ≠ .listen listener)
    (hrun : c.run (after commands) = .ok (book, announcements)) :
    let before := c.valuesBefore (after commands)
    let registrations := commands.filterMap Command.registration?
    ((∀ key, ¬ Changed before book key) ∧
      ∀ {ε σ : Type} (call : String → Announcement → EStateM ε σ Unit) (state : σ),
        Announcement.deliverAll (Announcement.noting call) announcements (state, []) =
          (state, [])) ∨
    ((∃ key, Changed before book key) ∧ ∃ batch, IsBatch before book batch ∧
      ∀ {ε σ : Type} (call : String → Announcement → EStateM ε σ Unit) (state : σ),
        (Announcement.deliverAll (Announcement.noting call) announcements (state, [])).2 =
          registrations.map fun listener => (listener, batch)) := by
  intro before registrations
  have hedited := edited_run (valid_after commands) hcopy hlisten hrun
  obtain ⟨hnone, rfl⟩ | ⟨hsome, batch, hbatch, rfl⟩ := hedited.announced
  · exact Or.inl ⟨hnone, fun call state => rfl⟩
  · refine Or.inr ⟨hsome, batch, hbatch, fun call state => ?_⟩
    rw [Announcement.deliverAll_noting, List.nil_append, List.flatMap_singleton,
      Announcement.deliveries, hedited.listeners_eq, listeners_after]

/-- A text is typed into a new sheet, and a listener is registered twice. -/
theorem net_changes_delivered_write :
    let commands : List Command := [.listen "log", .listen "log", .addSheet (some "A")]
    ∃ (book : Workbook) (announcements : List Announcement) (batch : List ChangedCell),
      (Command.write "A" "A1" (some "x")).run (after commands) = .ok (book, announcements) ∧
      (∃ sheet ∈ book.sheets, ⟨sheet.name, "A1"⟩ ∈ batch) ∧
      ∀ (call : String → Announcement → EStateM String Nat Unit) (state : Nat),
        (Announcement.deliverAll (Announcement.noting call) announcements (state, [])).2 =
          [("log", batch), ("log", batch)] := by
  intro commands
  have hvalid := valid_after [.listen "log", .listen "log"]
  have hfree : ¬ (after [.listen "log", .listen "log"]).HasSheet (upper "A") := by
    simp [after, Command.apply, Command.run, listen, HasSheet, names, empty]
  have hnamed : (after commands).named? "A" "A1" = some (.on "A" ⟨0, 0⟩) :=
    named?_addSheet hvalid rfl hfree rfl
  obtain ⟨⟨book, announcements⟩, hrun, -⟩ := run_write (valid_after commands) hnamed (some "x")
  have hblank : (after commands).entryAt (.on "A" ⟨0, 0⟩) = .blank := by
    refine ((entries_addSheet hvalid rfl hfree).2 _).trans ?_
    rw [entryAt, hvalid.wired.indexed.cellAt_eq_none hfree]
    rfl
  have htext : Cell.ofContent (some "x") = .literal "x" (.text "x") := by with_unfolding_all rfl
  have hwritten : Changed (after commands).valueAt book (.on "A" ⟨0, 0⟩) :=
    changed_of_write_text (valid_after commands) hnamed hblank htext hrun
  obtain ⟨sheet, hmem, hname⟩ := hasSheet_iff.1 hwritten.1
  have hon : CellKey.on sheet.name ⟨0, 0⟩ = .on "A" ⟨0, 0⟩ := by
    rw [CellKey.on, CellKey.on, hname]
    rfl
  have hchanged : Changed (after commands).valueAt book (.on sheet.name ⟨0, 0⟩) := hon ▸ hwritten
  obtain ⟨hnone, -⟩ | ⟨-, batch, hbatch, hcalls⟩ :=
    net_changes_delivered commands (by simp) (by simp) hrun
  · exact absurd hchanged (hnone _)
  · have haddress : Position.address ⟨0, 0⟩ = "A1" := by
      rw [Position.address, columnLetters]
      rfl
    have hcell := (hbatch.mem_iff _).2 ⟨sheet, hmem, ⟨0, 0⟩, hchanged, rfl⟩
    rw [haddress] at hcell
    exact ⟨book, announcements, batch, hrun, ⟨sheet, hmem, hcell⟩, hcalls⟩

end Workbook

end Spreadsheet
