import Spreadsheet.Proofs.Workbook.Reachable
import Spreadsheet.Workbook.Session

/-!
# Calls in place do what calls do

A call in place goes through workbooks that nobody should see, and would leave one of them behind if
it failed there. It never does: its checks come before its first change.

Results:
* `Call.Does`: a call in place answers and changes what the call says, and if that fails it fails
  alike with nothing changed. `does_renameSheet` and the others say so of every call.
* `Session.after` is the session after a list of calls in place; `book_after`: its workbook is the
  workbook after these calls.
-/

namespace Spreadsheet

namespace Call

variable {α : Type} (s : Session)

/-! ## One step -/

theorem run_ask (f : Workbook → Except WorkbookError α) :
    (ask f).run s = match f s.book with
      | .ok a => .ok a s
      | .error e => .error e s := by
  rw [ask, EStateM.run_bind, EStateM.run_get]
  dsimp only
  cases f s.book <;> rfl

@[simp] theorem run_look (f : Workbook → α) : (look f).run s = .ok (f s.book) s :=
  rfl

@[simp] theorem run_change (f : Workbook → Workbook) :
    (change f).run s = .ok () { s with book := f s.book } :=
  rfl

@[simp] theorem run_rewrite (changes : Changes) (formula : Nat × Position × String) :
    (rewrite changes formula).run s =
      .ok (Workbook.replaceFormula (s.book, changes) formula).2
        { s with book := (Workbook.replaceFormula (s.book, changes) formula).1 } :=
  rfl

@[simp] theorem run_settle (changes : Changes) (written : List CellKey) :
    (settle changes written).run s =
      .ok () ⟨(s.book.settle changes written).1, s.told ++ (s.book.settle changes written).2⟩ :=
  rfl

/-- The call in place does what the call `f` says: it answers the same and leaves the workbook
    after it, having told listeners the same; if `f` fails, it fails alike and changes nothing. -/
def Does (call : Call α) (f : Workbook → Except WorkbookError (Outcome α)) : Prop :=
  ∀ s : Session, call.run s = match f s.book with
    | .ok o => .ok o.result ⟨o.book, s.told ++ o.announcements⟩
    | .error e => .error e s

/-- A check may come first. -/
theorem Does.ask_bind {β : Type} {check : Workbook → Except WorkbookError α} {call : α → Call β}
    {f : Workbook → α → Except WorkbookError (Outcome β)} (h : ∀ a, (call a).Does (f · a)) :
    (ask check >>= call).Does fun book => check book >>= f book := by
  intro s
  rw [EStateM.run_bind, run_ask]
  dsimp only
  rcases check s.book with e | a
  · rfl
  · exact h a s

/-! ## Adding, deleting and moving sheets -/

theorem does_addSheet (name : Option String) : (addSheet name).Does (·.addSheet name) := by
  intro s
  rcases name with _ | name
  · rfl
  · dsimp only
    rw [Workbook.addSheet]
    rcases h : s.book.checkName name with e | _
    · simp [addSheet, run_ask, h]
    · simp [addSheet, run_ask, h, Workbook.append, -bind_pure_comp]

theorem does_deleteSheet (name : String) : (deleteSheet name).Does (·.deleteSheet name) :=
  Does.ask_bind fun _ _ => rfl

theorem does_moveSheet (name : String) (target : Nat) :
    (moveSheet name target).Does (·.moveSheet name target) := by
  refine Does.ask_bind fun index s => ?_
  rw [EStateM.run_bind, run_ask]
  by_cases htarget : s.book.size ≤ target
  · simp only [if_pos htarget]
  · simp only [if_neg htarget, EStateM.run_bind, run_look, run_change, pure, Except.pure,
      List.append_nil]

/-! ## Writing -/

theorem run_writeAt (index : Nat) (p : Position) (content : Option String) :
    (writeAt index p content).run s =
      .ok () ⟨(s.book.writeAt index p content).1,
        s.told ++ (s.book.writeAt index p content).2⟩ := by
  rw [writeAt, Workbook.writeAt]
  rcases h : s.book.sheets[index]? with _ | sheet
  · simp [h]
  · simp [h]

theorem does_write (sheet location : String) (content : Option String) :
    (write sheet location content).Does (·.write sheet location content) :=
  Does.ask_bind fun (index, p) s => run_writeAt s index p content

/-! ## Copying a sheet -/

theorem run_forM_writeAt (index : Nat) (entries : List (Position × String)) (s : Session) :
    (entries.forM fun entry => writeAt index entry.1 (some entry.2)).run s =
      .ok () ⟨(entries.foldl (Workbook.paste index) (s.book, s.told)).1,
        (entries.foldl (Workbook.paste index) (s.book, s.told)).2⟩ := by
  induction entries generalizing s with
  | nil => rfl
  | cons entry entries ih =>
    rw [List.forM_eq_forM, List.forM_cons, EStateM.run_bind, run_writeAt, List.foldl_cons]
    exact ih _

theorem foldl_paste_told (index : Nat) (entries : List (Position × String)) (book : Workbook)
    (told announcements : List Announcement) :
    entries.foldl (Workbook.paste index) (book, told ++ announcements) =
      ((entries.foldl (Workbook.paste index) (book, announcements)).1,
        told ++ (entries.foldl (Workbook.paste index) (book, announcements)).2) := by
  induction entries generalizing book announcements with
  | nil => rfl
  | cons entry entries ih =>
    rw [List.foldl_cons, List.foldl_cons]
    simp [Workbook.paste, List.append_assoc, ih]

theorem does_copySheet (name : String) : (copySheet name).Does (·.copySheet name) := by
  refine Does.ask_bind fun index s => ?_
  simp only [EStateM.run_bind, EStateM.run_pure, run_look]
  generalize (s.book.sheets[index]?).getD (.named name) = source
  have hadd := does_addSheet (some (s.book.freeName (source.name ++ "_"))) s
  rw [hadd]
  dsimp only
  rcases s.book.addSheet (some (s.book.freeName (source.name ++ "_"))) with e | added
  · rfl
  · simp only [run_forM_writeAt, foldl_paste_told]
    rfl

/-! ## Renaming a sheet -/

theorem foldlM_rewrite (formulas : List (Nat × Position × String)) (changes : Changes)
    (s : Session) :
    (formulas.foldlM rewrite changes).run s =
      .ok (formulas.foldl Workbook.replaceFormula (s.book, changes)).2
        { s with book := (formulas.foldl Workbook.replaceFormula (s.book, changes)).1 } := by
  induction formulas generalizing changes s with
  | nil => rfl
  | cons formula formulas ih =>
    rw [List.foldlM_cons, EStateM.run_bind, run_rewrite, List.foldl_cons]
    exact ih _ _

theorem run_forM_relink (keys : List CellKey) (s : Session) :
    (keys.forM fun key => do change (·.ensureAt key); change (·.link key)).run s =
      .ok ()
        { s with book := keys.foldl (fun book key => (book.ensureAt key).link key) s.book } := by
  induction keys generalizing s with
  | nil => rfl
  | cons key keys ih =>
    rw [List.forM_eq_forM, List.forM_cons, EStateM.run_bind, EStateM.run_bind, run_change,
      List.foldl_cons]
    exact ih _

theorem does_renameSheet (old new : String) :
    (renameSheet old new).Does (·.renameSheet old new) := by
  refine Does.ask_bind fun index => Does.ask_bind fun _ s => ?_
  simp only [EStateM.run_bind, run_look, run_change, foldlM_rewrite, run_forM_relink, run_settle]
  rfl

theorem Does.run_discard {call : Call α} {f : Workbook → Except WorkbookError (Outcome α)}
    (h : call.Does f) (s : Session) :
    (discard call).run s = match (f s.book).map fun o => (o.book, o.announcements) with
      | .ok (book, announcements) => .ok () ⟨book, s.told ++ announcements⟩
      | .error e => .error e s := by
  have hrun := h s
  rw [EStateM.run] at hrun
  change EStateM.map _ call s = _
  rw [EStateM.map, hrun]
  rcases f s.book with e | o <;> rfl

end Call

/-! ## Sessions -/

/-- The call in place, without what it answers. -/
def Command.perform : Command → Call Unit
  | addSheet name => discard (Call.addSheet name)
  | deleteSheet name => discard (Call.deleteSheet name)
  | renameSheet old new => discard (Call.renameSheet old new)
  | moveSheet name target => discard (Call.moveSheet name target)
  | copySheet name => discard (Call.copySheet name)
  | write sheet location content => discard (Call.write sheet location content)
  | listen listener => Call.listen listener

/-- A call in place ends as the call does. If this fails, it leaves the session as it was. -/
theorem Command.run_perform (c : Command) (s : Session) :
    c.perform.run s = match c.run s.book with
      | .ok (book, announcements) => .ok () ⟨book, s.told ++ announcements⟩
      | .error e => .error e s := by
  cases c with
  | addSheet name => exact (Call.does_addSheet name).run_discard s
  | deleteSheet name => exact (Call.does_deleteSheet name).run_discard s
  | renameSheet old new => exact (Call.does_renameSheet old new).run_discard s
  | moveSheet name target => exact (Call.does_moveSheet name target).run_discard s
  | copySheet name => exact (Call.does_copySheet name).run_discard s
  | write sheet location content => exact (Call.does_write sheet location content).run_discard s
  | listen listener => simp [perform, run, Call.listen]

/-- The session that a call leaves behind, whether it fails or not. -/
def Session.perform (s : Session) (c : Command) : Session :=
  match c.perform.run s with
  | .ok _ s => s
  | .error _ s => s

/-- The session after the calls `commands` on an empty workbook. -/
def Session.after (commands : List Command) : Session :=
  commands.foldl Session.perform ⟨.empty, []⟩

theorem Session.book_perform (s : Session) (c : Command) :
    (s.perform c).book = c.apply s.book := by
  rw [Session.perform, Command.run_perform, Command.apply]
  rcases c.run s.book with e | ⟨book, announcements⟩ <;> rfl

/-- Calls in place lead to the workbook that calls lead to. -/
theorem Session.book_after (commands : List Command) :
    (Session.after commands).book = Workbook.after commands := by
  have hall (s : Session) :
      (commands.foldl Session.perform s).book = commands.foldl Command.apply s.book := by
    induction commands generalizing s with
    | nil => rfl
    | cons c commands ih => rw [List.foldl_cons, List.foldl_cons, ih, Session.book_perform]
  exact hall ⟨.empty, []⟩

end Spreadsheet
