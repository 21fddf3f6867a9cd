import Spreadsheet.Document
import Spreadsheet.Proofs.Workbook.Failure
import Spreadsheet.Proofs.Workbook.Locality

/-!
# Which documents are loaded

A document is loaded if it has the shape of one, its names may be given to sheets, and its keys lead
to cells. The workbook is the one of a user who adds the sheets and then types the contents in, in
the order of the document, so the last of several contents for a cell is the one that stays.

Results:
* `Json.Describes`: the shape of a document. `describes_iff`: reading finds what it describes.
* `Acceptable`: the rules for the names and keys of a document.
* `runs_addSheets`, `runs_writes`, `runs_allWrites`: when the calls of a user succeed and what they
  make of a workbook.
* `ofDocument_accepts`: which documents are loaded, and what their workbooks hold.
-/

namespace Spreadsheet

/-! ## Documents -/

/-- A sheet of a document: its name, and what is to be typed in under which key, in the order of
    the document. -/
structure SheetPlan where
  name : String
  entries : List (String × String)

namespace SheetPlan

/-- The plan as it is read before anything is typed in. -/
def saved (plan : SheetPlan) : SavedSheet :=
  ⟨plan.name, plan.entries.map fun entry => (entry.1, .string entry.2)⟩

/-- The value is an object with this name and with these contents, which are all texts. -/
def IsIn (plan : SheetPlan) (v : Json) : Prop :=
  ∃ members, v = .object members ∧ Json.member? "name" members = some (.string plan.name) ∧
    Json.member? "cell-contents" members =
      some (.object (plan.entries.map fun entry => (entry.1, .string entry.2)))

/-- The calls by which a user types the contents in. -/
def writes (plan : SheetPlan) : List Command :=
  plan.entries.map fun entry => .write plan.name entry.1 (some entry.2)

end SheetPlan

/-- The value is an object with a list of sheets, and these are the sheets in their order. -/
def Json.Describes (v : Json) (plans : List SheetPlan) : Prop :=
  ∃ members items, v = .object members ∧ Json.member? "sheets" members = some (.array items) ∧
    List.Forall₂ (fun item plan => plan.IsIn item) items plans

/-- The names may be given to sheets and are different in any case, and every key is an address of
    the grid, with blanks at its ends or not. -/
structure Acceptable (plans : List SheetPlan) : Prop where
  names : ∀ plan ∈ plans, IsSheetName plan.name
  distinct : (plans.map fun plan => upper plan.name).Nodup
  addresses : ∀ plan ∈ plans, ∀ entry ∈ plan.entries, Position.IsGridAddress (trim entry.1)

/-- What the last entry for a cell says. -/
def lastText? (p : Position) (entries : List (String × String)) : Option String :=
  (entries.reverse.find? fun entry => (Position.ofLocation entry.1).toOption == some p).map Prod.snd

theorem lastText?_cons (p : Position) (entry : String × String) (entries : List (String × String)) :
    lastText? p (entry :: entries) = (lastText? p entries).or
      (if (Position.ofLocation entry.1).toOption = some p then some entry.2 else none) := by
  rw [lastText?, List.reverse_cons, List.find?_append, lastText?]
  rcases entries.reverse.find? _ with _ | last
  · by_cases hp : (Position.ofLocation entry.1).toOption = some p <;> simp [hp]
  · rfl

/-- The calls of a user who enters a document: all sheets are added first. -/
def typing (plans : List SheetPlan) : List Command :=
  plans.map (fun plan => .addSheet (some plan.name)) ++ plans.flatMap SheetPlan.writes

/-! ## Reading the shape -/

theorem orError_eq_ok_iff {α : Type} {e : LoadError} {x : Option α} {a : α} :
    orError e x = .ok a ↔ x = some a := by
  rcases x with _ | b <;> simp [orError]

theorem object?_eq_some_iff {v : Json} {members : List (String × Json)} :
    v.object? = some members ↔ v = .object members := by
  cases v <;> simp [Json.object?]

theorem array?_eq_some_iff {v : Json} {items : List Json} :
    v.array? = some items ↔ v = .array items := by
  cases v <;> simp [Json.array?]

theorem string?_eq_some_iff {v : Json} {s : String} : v.string? = some s ↔ v = .string s := by
  cases v <;> simp [Json.string?]

open Workbook (bind_eq_ok_iff)

theorem ofJson_eq_ok_iff {index : Nat} {v : Json} {sheet : SavedSheet} :
    SavedSheet.ofJson index v = .ok sheet ↔
      ∃ members, v = .object members ∧
        Json.member? "name" members = some (.string sheet.name) ∧
        Json.member? "cell-contents" members = some (.object sheet.contents) := by
  simp only [SavedSheet.ofJson, bind_eq_ok_iff, orError_eq_ok_iff, object?_eq_some_iff,
    string?_eq_some_iff]
  constructor
  · rintro ⟨members, rfl, _, hname, name, rfl, _, hcontents, contents, rfl, heq⟩
    cases heq
    exact ⟨members, rfl, hname, hcontents⟩
  · rintro ⟨members, rfl, hname, hcontents⟩
    exact ⟨members, rfl, _, hname, _, rfl, _, hcontents, _, rfl, rfl⟩

/-- Every item is read as a sheet, and its place in the list matters for errors only. -/
theorem mapM_ofJson_eq_ok_iff {items : List Json} {sheets : List SavedSheet} (k : Nat) :
    (items.zipIdx k).mapM (fun (v, index) => SavedSheet.ofJson index v) = .ok sheets ↔
      List.Forall₂ (fun item sheet => SavedSheet.ofJson 0 item = .ok sheet) items sheets := by
  have hindex (index : Nat) (v : Json) (sheet : SavedSheet) :
      SavedSheet.ofJson index v = .ok sheet ↔ SavedSheet.ofJson 0 v = .ok sheet := by
    rw [ofJson_eq_ok_iff, ofJson_eq_ok_iff]
  induction items generalizing sheets k with
  | nil => simp [pure, Except.pure, eq_comm]
  | cons item items ih =>
    simp only [List.zipIdx_cons, List.mapM_cons, bind_eq_ok_iff, hindex, ih,
      List.forall₂_cons_left_iff]
    constructor
    · rintro ⟨sheet, hsheet, rest, hrest, heq⟩
      cases heq
      exact ⟨sheet, rest, hsheet, hrest, rfl⟩
    · rintro ⟨sheet, rest, hsheet, hrest, rfl⟩
      exact ⟨sheet, hsheet, rest, hrest, rfl⟩

/-- Reading finds the sheets that the document describes. -/
theorem describes_iff {v : Json} {plans : List SheetPlan} :
    v.Describes plans ↔ savedSheets v = .ok (plans.map SheetPlan.saved) := by
  simp only [Json.Describes, savedSheets, bind_eq_ok_iff, orError_eq_ok_iff, object?_eq_some_iff,
    array?_eq_some_iff, mapM_ofJson_eq_ok_iff, List.forall₂_map_right_iff, ofJson_eq_ok_iff]
  constructor
  · rintro ⟨members, items, rfl, hitems, hall⟩
    exact ⟨members, rfl, _, hitems, items, rfl, hall⟩
  · rintro ⟨members, rfl, _, hitems, items, rfl, hall⟩
    exact ⟨members, items, rfl, hitems, hall⟩

/-! ## Runs that may fail -/

/-- A run succeeds if and only if `ok` holds, and then its result is as `post` says. -/
structure Runs {ε σ : Type} (x : Except ε σ) (ok : Prop) (post : σ → Prop) : Prop where
  succeeds_iff : (∃ s, x = .ok s) ↔ ok
  result : ∀ s, x = .ok s → post s

namespace Runs

variable {ε σ τ : Type} {x : Except ε σ} {ok ok' : Prop} {post : σ → Prop}

theorem pure {s : σ} (h : post s) : Runs (.ok s : Except ε σ) True post := by
  refine ⟨⟨fun _ => trivial, fun _ => ⟨s, rfl⟩⟩, ?_⟩
  rintro _ ⟨⟩
  exact h

theorem bind {f : σ → Except ε τ} {post' : τ → Prop} (hx : Runs x ok post)
    (hf : ∀ s, post s → Runs (f s) ok' post') : Runs (x >>= f) (ok ∧ ok') post' := by
  constructor
  · simp only [bind_eq_ok_iff]
    constructor
    · rintro ⟨t, s, hs, ht⟩
      exact ⟨hx.succeeds_iff.1 ⟨s, hs⟩, (hf s (hx.result s hs)).succeeds_iff.1 ⟨t, ht⟩⟩
    · rintro ⟨hok, hok'⟩
      obtain ⟨s, hs⟩ := hx.succeeds_iff.2 hok
      obtain ⟨t, ht⟩ := (hf s (hx.result s hs)).succeeds_iff.2 hok'
      exact ⟨t, s, hs, ht⟩
  · intro t ht
    obtain ⟨s, hs, ht⟩ := bind_eq_ok_iff.1 ht
    exact (hf s (hx.result s hs)).result t ht

theorem imp {post' : σ → Prop} (h : Runs x ok post) (hok : ok ↔ ok')
    (hpost : ∀ s, post s → post' s) : Runs x ok' post' :=
  ⟨h.succeeds_iff.trans hok, fun s hs => hpost s (h.result s hs)⟩

end Runs

namespace Workbook

variable {book : Workbook}

/-! ## Calls of a user -/

/-- The workbook after a call of a user; if the call fails then loading fails. -/
def enter (book : Workbook) (c : Command) : Except LoadError Workbook :=
  match c.run book with
  | .error e => .error (.edit e)
  | .ok (book, _) => .ok book

theorem enter_eq_ok_iff {c : Command} {book' : Workbook} :
    book.enter c = .ok book' ↔ ∃ announcements, c.run book = .ok (book', announcements) := by
  rw [enter]
  rcases c.run book with e | ⟨b, announcements⟩ <;> simp

theorem exists_enter_iff (h : Valid book) (c : Command) :
    (∃ b, book.enter c = .ok b) ↔ ¬ c.Refused book := by
  rw [← exists_run_iff h]
  simp only [enter_eq_ok_iff, Prod.exists]

/-- Calls that all succeed lead to the workbook after them. -/
theorem eq_of_foldlM_enter {commands : List Command} {book' : Workbook}
    (h : commands.foldlM enter book = .ok book') : book' = commands.foldl Command.apply book := by
  induction commands generalizing book with
  | nil => exact (Except.ok.inj h).symm
  | cons c commands ih =>
    rw [List.foldlM_cons] at h
    obtain ⟨next, hnext, hrest⟩ := bind_eq_ok_iff.1 h
    obtain ⟨announcements, hrun⟩ := enter_eq_ok_iff.1 hnext
    rw [ih hrest, List.foldl_cons, Command.apply, hrun]

theorem addSaved_eq_enter (book : Workbook) (plan : SheetPlan) :
    book.addSaved plan.saved = book.enter (.addSheet (some plan.name)) := by
  rw [addSaved, enter, Command.run, SheetPlan.saved]
  rcases book.addSheet (some plan.name) with e | outcome <;> rfl

theorem writeSaved_eq_enter (book : Workbook) (name : String) (entry : String × String) :
    book.writeSaved name (entry.1, .string entry.2) =
      book.enter (.write name entry.1 (some entry.2)) := by
  simp only [writeSaved, Json.string?, orError, bind, Except.bind]
  rw [enter, Command.run]
  rcases book.write name entry.1 (some entry.2) with e | outcome <;> rfl

theorem foldlM_writeSheet_eq_enter (book : Workbook) (plans : List SheetPlan) :
    (plans.map SheetPlan.saved).foldlM writeSheet book =
      (plans.flatMap SheetPlan.writes).foldlM enter book := by
  have hsheet (b : Workbook) (plan : SheetPlan) :
      b.writeSheet plan.saved = plan.writes.foldlM enter b := by
    simp only [writeSheet, SheetPlan.saved, SheetPlan.writes, List.foldlM_map, writeSaved_eq_enter]
  induction plans generalizing book with
  | nil => rfl
  | cons plan plans ih =>
    rw [List.map_cons, List.foldlM_cons, List.flatMap_cons, List.foldlM_append, hsheet]
    exact bind_congr ih

/-- A document is entered by the calls of a user. -/
theorem ofDocument_eq_enter {v : Json} {plans : List SheetPlan} (h : v.Describes plans) :
    ofDocument v = (typing plans).foldlM enter empty := by
  have hadds : (plans.map SheetPlan.saved).foldlM addSaved empty =
      (plans.map fun plan => Command.addSheet (some plan.name)).foldlM enter empty := by
    simp only [List.foldlM_map, addSaved_eq_enter]
  rw [ofDocument, describes_iff.1 h, typing, List.foldlM_append, ← hadds]
  exact bind_congr fun b => foldlM_writeSheet_eq_enter b plans

/-- Every item of a run that succeeds takes a step that does so. -/
theorem exists_step_of_foldlM {α σ ε : Type} {f : σ → α → Except ε σ} {items : List α} {s t : σ}
    (h : items.foldlM f s = .ok t) : ∀ a ∈ items, ∃ s s', f s a = .ok s' := by
  induction items generalizing s with
  | nil => exact fun _ ha => absurd ha List.not_mem_nil
  | cons a items ih =>
    obtain ⟨s', hs', hrest⟩ := bind_eq_ok_iff.1 h
    exact List.forall_mem_cons.2 ⟨⟨s, s', hs'⟩, ih hrest⟩

/-- Contents that can be typed in are texts. -/
theorem exists_saved_of_writeSheet {b b' : Workbook} {sheet : SavedSheet}
    (h : b.writeSheet sheet = .ok b') : ∃ plan : SheetPlan, plan.saved = sheet := by
  have hcontents : sheet.contents ∈
      Set.range (List.map fun entry : String × String => (entry.1, Json.string entry.2)) := by
    rw [Set.range_list_map]
    intro entry hentry
    obtain ⟨s, s', hs'⟩ := exists_step_of_foldlM h entry hentry
    obtain ⟨text, htext, -⟩ := bind_eq_ok_iff.1 hs'
    rw [orError_eq_ok_iff, string?_eq_some_iff] at htext
    exact ⟨(entry.1, text), Prod.ext rfl htext.symm⟩
  obtain ⟨entries, hentries⟩ := hcontents
  exact ⟨⟨sheet.name, entries⟩, by rw [SheetPlan.saved, hentries]⟩

/-- A document that is loaded has the shape of one. -/
theorem exists_describes {v : Json} {book : Workbook} (h : ofDocument v = .ok book) :
    ∃ plans, v.Describes plans := by
  obtain ⟨sheets, hsheets, hrest⟩ := bind_eq_ok_iff.1 h
  obtain ⟨start, -, hwrites⟩ := bind_eq_ok_iff.1 hrest
  have hplans : sheets ∈ Set.range (List.map SheetPlan.saved) := by
    rw [Set.range_list_map]
    intro sheet hsheet
    obtain ⟨b, b', hb'⟩ := exists_step_of_foldlM hwrites sheet hsheet
    exact exists_saved_of_writeSheet hb'
  obtain ⟨plans, rfl⟩ := hplans
  exact ⟨plans, describes_iff.2 hsheets⟩

/-! ## Adding the sheets -/

theorem runs_addSheet (h : Valid book) (name : String) :
    Runs (book.enter (.addSheet (some name))) (IsSheetName name ∧ ¬ book.HasSheet (upper name))
      fun b => Valid b ∧ b.names = book.names ++ [name] ∧
        ∀ key, b.entryAt key = book.entryAt key := by
  constructor
  · rw [exists_enter_iff h, Command.Refused, not_or, not_not]
  · intro b hb
    obtain ⟨announcements, hrun⟩ := enter_eq_ok_iff.1 hb
    obtain ⟨o, ho, heq⟩ := map_eq_ok_iff.1 hrun
    obtain ⟨rfl, -⟩ := Prod.mk.inj heq
    obtain ⟨hname, hfree, rfl⟩ := (addSheet_eq_ok_iff h.wired.indexed).1 ho
    exact ⟨(edited_append h hname hfree).valid, entries_append h hname hfree⟩

/-- Sheets are added under names that are allowed and different from each other and from those that
    are there. -/
theorem runs_addSheets (h : Valid book) (names : List String) :
    Runs ((names.map fun name => Command.addSheet (some name)).foldlM enter book)
      ((∀ name ∈ names, IsSheetName name) ∧ (names.map upper).Nodup ∧
        ∀ name ∈ names, ¬ book.HasSheet (upper name))
      fun b => Valid b ∧ b.names = book.names ++ names ∧
        ∀ key, b.entryAt key = book.entryAt key := by
  induction names generalizing book with
  | nil => exact (Runs.pure ⟨h, (List.append_nil _).symm, fun _ => rfl⟩).imp (by simp) fun _ => id
  | cons name names ih =>
    rw [List.map_cons, List.foldlM_cons]
    have hrest : ∀ b : Workbook, (Valid b ∧ b.names = book.names ++ [name] ∧
        ∀ key, b.entryAt key = book.entryAt key) →
        Runs ((names.map fun name => Command.addSheet (some name)).foldlM enter b)
          ((∀ n ∈ names, IsSheetName n) ∧ (names.map upper).Nodup ∧
            ∀ n ∈ names, ¬ (book.HasSheet (upper n) ∨ upper n = upper name))
          fun b' => Valid b' ∧ b'.names = book.names ++ name :: names ∧
            ∀ key, b'.entryAt key = book.entryAt key := by
      rintro b ⟨hb, hnames, hentry⟩
      have hsheet (n : String) : b.HasSheet n ↔ book.HasSheet n ∨ n = upper name := by
        simp [HasSheet, hnames]
      refine (ih hb).imp (by simp only [hsheet]) ?_
      rintro b' ⟨hb', hnames', hentry'⟩
      refine ⟨hb', ?_, fun key => (hentry' key).trans (hentry key)⟩
      rw [hnames', hnames, List.append_assoc, List.singleton_append]
    refine ((runs_addSheet h name).bind hrest).imp ?_ fun _ => id
    simp only [List.forall_mem_cons, List.map_cons, List.nodup_cons, List.mem_map, not_exists,
      not_and, not_or, forall_and]
    tauto

/-! ## Typing the contents in -/

theorem runs_write (h : Valid book) {name : String} (hname : book.HasSheet (upper name))
    (location text : String) :
    Runs (book.enter (.write name location (some text))) (Position.IsGridAddress (trim location))
      fun b => Valid b ∧ b.names = book.names ∧ ∀ key, b.entryAt key =
        if key.sheet = upper name ∧ (Position.ofLocation location).toOption = some key.position then
          Cell.ofContent (some text)
        else book.entryAt key := by
  constructor
  · simp only [exists_enter_iff h, Command.Refused, hname, not_true_eq_false, false_or, not_not]
  · intro b hb
    obtain ⟨announcements, hrun⟩ := enter_eq_ok_iff.1 hb
    obtain ⟨o, ho, heq⟩ := map_eq_ok_iff.1 hrun
    obtain ⟨rfl, -⟩ := Prod.mk.inj heq
    obtain ⟨p, hp, -⟩ := agreeOff_write h ho
    have hwritten := run_write h (named?_eq_some_iff.2 ⟨hname, p, hp, rfl⟩) (some text)
    rw [hrun] at hwritten
    obtain ⟨_, ⟨⟩, hnames, hentry⟩ := hwritten
    refine ⟨(edited_write h ho).valid, hnames, fun key => ?_⟩
    obtain ⟨sheet, q⟩ := key
    rw [hentry, hp, CellKey.on]
    simp only [CellKey.mk.injEq, Except.toOption, Option.some.injEq, eq_comm]

/-- The contents of a sheet are typed in under addresses of the grid, and the last content for a
    cell stays. -/
theorem runs_writes (h : Valid book) {plan : SheetPlan} (hname : book.HasSheet (upper plan.name)) :
    Runs (plan.writes.foldlM enter book)
      (∀ entry ∈ plan.entries, Position.IsGridAddress (trim entry.1))
      fun b => Valid b ∧ b.names = book.names ∧ ∀ key, b.entryAt key =
        if key.sheet = upper plan.name then
          (lastText? key.position plan.entries).elim (book.entryAt key) (Cell.ofContent ∘ some)
        else book.entryAt key := by
  obtain ⟨name, entries⟩ := plan
  rw [SheetPlan.writes]
  dsimp only at hname ⊢
  induction entries generalizing book with
  | nil =>
    refine (Runs.pure ⟨h, rfl, fun key => ?_⟩).imp (by simp) fun _ => id
    split <;> rfl
  | cons entry entries ih =>
    rw [List.map_cons, List.foldlM_cons, List.forall_mem_cons]
    refine (runs_write h hname entry.1 entry.2).bind ?_
    rintro b ⟨hb, hnames, hentry⟩
    refine (ih hb (by rwa [HasSheet, hnames])).imp Iff.rfl ?_
    rintro b' ⟨hb', hnames', hentry'⟩
    refine ⟨hb', hnames'.trans hnames, fun key => ?_⟩
    rw [hentry', hentry, lastText?_cons]
    by_cases hkey : key.sheet = upper name
    · rcases lastText? key.position entries with _ | text
      · by_cases hp : (Position.ofLocation entry.1).toOption = some key.position <;> simp [hkey, hp]
      · simp [hkey]
    · simp [hkey]

/-- The contents of all sheets are typed in. Different sheets have different cells. -/
theorem runs_allWrites (h : Valid book) {plans : List SheetPlan}
    (hnames : ∀ plan ∈ plans, book.HasSheet (upper plan.name))
    (hdistinct : (plans.map fun plan => upper plan.name).Nodup) :
    Runs ((plans.flatMap SheetPlan.writes).foldlM enter book)
      (∀ plan ∈ plans, ∀ entry ∈ plan.entries, Position.IsGridAddress (trim entry.1))
      fun b => Valid b ∧ b.names = book.names ∧
        (∀ key, (∀ plan ∈ plans, key.sheet ≠ upper plan.name) → b.entryAt key = book.entryAt key) ∧
        ∀ plan ∈ plans, ∀ p, b.entryAt (.on plan.name p) =
          (lastText? p plan.entries).elim (book.entryAt (.on plan.name p))
            (Cell.ofContent ∘ some) := by
  induction plans generalizing book with
  | nil => exact (Runs.pure ⟨h, rfl, fun _ _ => rfl, by simp⟩).imp (by simp) fun _ => id
  | cons plan plans ih =>
    rw [List.flatMap_cons, List.foldlM_append, List.forall_mem_cons]
    rw [List.forall_mem_cons] at hnames
    rw [List.map_cons, List.nodup_cons, List.mem_map, not_exists] at hdistinct
    obtain ⟨hother, hdistinct⟩ := hdistinct
    refine (runs_writes h hnames.1).bind ?_
    rintro b ⟨hb, hb_names, hentry⟩
    have hsheets : ∀ plan ∈ plans, b.HasSheet (upper plan.name) := by
      intro plan hplan
      rw [HasSheet, hb_names]
      exact hnames.2 plan hplan
    refine (ih hb hsheets hdistinct).imp Iff.rfl ?_
    rintro b' ⟨hb', hb'_names, hrest, hwritten⟩
    refine ⟨hb', hb'_names.trans hb_names, fun key hkey => ?_, ?_⟩
    · rw [List.forall_mem_cons] at hkey
      rw [hrest key hkey.2, hentry, if_neg hkey.1]
    · rw [List.forall_mem_cons]
      constructor
      · intro p
        have hkey : ∀ d ∈ plans, (CellKey.on plan.name p).sheet ≠ upper d.name :=
          fun d hd hsame => hother d ⟨hd, hsame.symm⟩
        have hon : (CellKey.on plan.name p).sheet = upper plan.name := rfl
        rw [hrest _ hkey, hentry, if_pos hon]
        rfl
      · intro d hd p
        have hne : (CellKey.on d.name p).sheet ≠ upper plan.name :=
          fun hsame => hother d ⟨hd, hsame⟩
        rw [hwritten d hd p, hentry, if_neg hne]

/-! ## Loading -/

/-- The calls of a user who enters a document. -/
theorem runs_typing (plans : List SheetPlan) :
    Runs ((typing plans).foldlM enter empty) (Acceptable plans) fun b =>
      Valid b ∧ b.names = plans.map SheetPlan.name ∧
        ∀ plan ∈ plans, ∀ p, b.entryAt (.on plan.name p) =
          Cell.ofContent (lastText? p plan.entries) := by
  have hadds : plans.map (fun plan => Command.addSheet (some plan.name)) =
      (plans.map SheetPlan.name).map fun name => .addSheet (some name) := by
    rw [List.map_map]
    rfl
  rw [typing, List.foldlM_append, hadds]
  have hwrites : ∀ b : Workbook, (Valid b ∧ b.names = empty.names ++ plans.map SheetPlan.name ∧
      ∀ key, b.entryAt key = empty.entryAt key) →
      Runs ((plans.flatMap SheetPlan.writes).foldlM enter b)
        (∀ plan ∈ plans, ∀ entry ∈ plan.entries, Position.IsGridAddress (trim entry.1))
        fun b' => Valid b' ∧ b'.names = plans.map SheetPlan.name ∧
          ∀ plan ∈ plans, ∀ p, b'.entryAt (.on plan.name p) =
            Cell.ofContent (lastText? p plan.entries) := by
    rintro b ⟨hb, hnames, hentry⟩
    have hsheets : ∀ plan ∈ plans, b.HasSheet (upper plan.name) := by
      intro plan hplan
      rw [HasSheet, hnames]
      exact List.mem_map_of_mem (List.mem_map_of_mem hplan)
    have hdistinct : (plans.map fun plan => upper plan.name).Nodup := by
      have hnodup := hb.wired.indexed.nodup_names
      rwa [hnames, names, empty, List.map_nil, List.nil_append, List.map_map] at hnodup
    refine (runs_allWrites hb hsheets hdistinct).imp Iff.rfl ?_
    rintro b' ⟨hb', hnames', -, hwritten⟩
    refine ⟨hb', hnames'.trans hnames, fun plan hplan p => ?_⟩
    have hblank : b.entryAt (.on plan.name p) = .blank :=
      (hentry _).trans (entryAt_eq_blank wired_empty fun hkey => not_hasSheet_empty _ hkey.1)
    rw [hwritten plan hplan p, hblank]
    rcases lastText? p plan.entries with _ | text
    · rfl
    · rw [Option.elim_some, Function.comp_apply]
  refine ((runs_addSheets valid_empty (plans.map SheetPlan.name)).bind hwrites).imp ?_ fun _ => id
  have hempty : ∀ name ∈ plans.map SheetPlan.name, ¬ empty.HasSheet (upper name) :=
    fun name _ => not_hasSheet_empty _
  rw [List.map_map, List.forall_mem_map]
  constructor
  · rintro ⟨⟨hnames, hdistinct, -⟩, haddresses⟩
    exact ⟨hnames, hdistinct, haddresses⟩
  · rintro ⟨hnames, hdistinct, haddresses⟩
    exact ⟨⟨hnames, hdistinct, hempty⟩, haddresses⟩

/-- A document is loaded if and only if it describes sheets with acceptable names and keys. The
    workbook is the one of a user who enters it. Its sheets are those of the document in their
    order, spelled as there, and each holds, under each address, what the last of its entries for
    this address amounts to, and nothing elsewhere. -/
theorem ofDocument_accepts (v : Json) :
    ((∃ book, ofDocument v = .ok book) ↔ ∃ plans, v.Describes plans ∧ Acceptable plans) ∧
    ∀ book plans, ofDocument v = .ok book → v.Describes plans →
      book = after (typing plans) ∧
      book.names = plans.map SheetPlan.name ∧
      List.Forall₂ (fun sheet plan =>
        ∀ p, sheet.content? p = (Cell.ofContent (lastText? p plan.entries)).content?)
        book.sheets plans ∧
      ∀ plan ∈ plans, ∀ name location p, upper name = upper plan.name →
        Position.ofLocation location = .ok p →
        book.content name location = .ok (Cell.ofContent (lastText? p plan.entries)).content? := by
  have hruns {plans : List SheetPlan} (hplans : v.Describes plans) := by
    have h := runs_typing plans
    rwa [← ofDocument_eq_enter hplans] at h
  constructor
  · constructor
    · rintro ⟨book, hbook⟩
      obtain ⟨plans, hplans⟩ := exists_describes hbook
      exact ⟨plans, hplans, (hruns hplans).succeeds_iff.1 ⟨book, hbook⟩⟩
    · rintro ⟨plans, hplans, haccept⟩
      exact (hruns hplans).succeeds_iff.2 haccept
  · intro book plans hbook hplans
    obtain ⟨hvalid, hnames, hentry⟩ := (hruns hplans).result book hbook
    refine ⟨?_, hnames, ?_, ?_⟩
    · rw [ofDocument_eq_enter hplans] at hbook
      exact eq_of_foldlM_enter hbook
    · rw [List.forall₂_iff_get]
      have hlength := congrArg List.length hnames
      rw [names, List.length_map, List.length_map] at hlength
      refine ⟨hlength, fun i hi hi' p => ?_⟩
      have hname : book.sheets[i].name = plans[i].name := by
        have hget := congrArg (·[i]?) hnames
        simpa [names, hi, hi'] using hget
      have hcontent : (book.entryAt (.on book.sheets[i].name p)).content? =
          book.sheets[i].content? p :=
        content?_entryAt hvalid.wired.indexed (List.getElem_mem hi) rfl
      rw [List.get_eq_getElem, List.get_eq_getElem, ← hentry _ (List.getElem_mem hi') p, ← hname,
        hcontent]
    · intro plan hplan name location p hname hp
      have hsheet : book.HasSheet (upper name) := by
        rw [HasSheet, hnames, hname]
        exact List.mem_map_of_mem (List.mem_map_of_mem hplan)
      have hon : CellKey.on name p = .on plan.name p := by rw [CellKey.on, CellKey.on, hname]
      rw [content_eq hvalid.wired.indexed, answer, if_pos hsheet, hp]
      dsimp only
      rw [hon, hentry plan hplan p]

/-- Keys in other case, with zeros in front or with blanks around them lead to the same cell, and a
    blank entry clears it. -/
theorem ofDocument_accepts_same_cell :
    let contents : List (String × Json) := [("A1", .string "5"), ("b2", .string "x"),
      (" a01 ", .string "7"), ("B2", .string " ")]
    let v : Json := .object [("sheets", .array [.object
      [("name", .string "Data"), ("cell-contents", .object contents)]])]
    ∃ book, ofDocument v = .ok book ∧ book.names = ["Data"] ∧
      book.content "DATA" "A1" = .ok (some "7") ∧ book.content "DATA" "B2" = .ok none := by
  intro contents v
  let plans : List SheetPlan :=
    [⟨"Data", [("A1", "5"), ("b2", "x"), (" a01 ", "7"), ("B2", " ")]⟩]
  have hplans : v.Describes plans :=
    ⟨_, _, rfl, rfl, .cons ⟨_, rfl, rfl, rfl⟩ .nil⟩
  have hgrid (key : String) (p : Position) (hp : Position.ofLocation key = .ok p) :
      Position.IsGridAddress (trim key) := Position.exists_ofLocation_iff.1 ⟨p, hp⟩
  have haccept : Acceptable plans := by
    refine ⟨?_, by simp [plans], ?_⟩
    · rintro plan hplan
      obtain rfl := List.mem_singleton.1 hplan
      exact isSheetName_iff.2 (by decide +kernel)
    · rintro plan hplan
      obtain rfl := List.mem_singleton.1 hplan
      simp only [List.forall_mem_cons, List.not_mem_nil, false_imp_iff, implies_true, and_true]
      exact ⟨hgrid "A1" ⟨0, 0⟩ (by decide +kernel), hgrid "b2" ⟨1, 1⟩ (by decide +kernel),
        hgrid " a01 " ⟨0, 0⟩ (by decide +kernel), hgrid "B2" ⟨1, 1⟩ (by decide +kernel)⟩
  obtain ⟨book, hbook⟩ := (ofDocument_accepts v).1.2 ⟨plans, hplans, haccept⟩
  obtain ⟨-, hnames, -, hcontent⟩ := (ofDocument_accepts v).2 book plans hbook hplans
  refine ⟨book, hbook, hnames, ?_, ?_⟩
  · refine (hcontent _ (List.mem_singleton_self _) "DATA" "A1" ⟨0, 0⟩ (by decide +kernel)
      (by decide +kernel)).trans ?_
    decide +kernel
  · refine (hcontent _ (List.mem_singleton_self _) "DATA" "B2" ⟨1, 1⟩ (by decide +kernel)
      (by decide +kernel)).trans ?_
    decide +kernel

end Workbook

end Spreadsheet
