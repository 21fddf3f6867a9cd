import Spreadsheet.Proofs.Workbook.History
import Spreadsheet.Proofs.Workbook.RenameMeaning

/-!
# Copying a sheet

The contents of a sheet are typed in again on a new sheet, one after the other. Qualified references
still lead to the cells that they led to, and the others stay on the copy. On the way there the copy
has values that are soon replaced; only the last ones matter, and these follow from the entries.

Results:
* `foldl_paste_eq`: copying is a series of writes.
* `Copied`: what a copy makes of sheets and entries. `copied_copySheet` says that a copy of any
  sheet succeeds and does just that.
* `Copied.mirrored`: the other sheets are what they were.
* `Copied.imitates`: the cells of the original imitate those of the copy, if each of their cycles
  can do without qualified references.
* `copy_faithful`: contents, extents and values of a reachable workbook after a copy.
-/

namespace Spreadsheet.Workbook

open Formula (Expr Reference)
open Relation (TransGen)

variable {book book' : Workbook} {original copy : String}

/-! ## A series of writes -/

/-- Typing a content in is a write at the place of the sheet. -/
theorem run_typed {name : String} {index : Nat} (hindex : book.locate name = .ok index)
    {entry : Position × String} (hgrid : entry.1.inGrid) :
    (typed name entry).run book = .ok (book.writeAt index entry.1 (some entry.2)) := by
  simp [typed, Command.run, write, locateCell, hindex, Position.ofLocation_address hgrid, bind,
    Except.bind, Except.map, pure, Except.pure]

theorem apply_typed {name : String} {index : Nat} (hindex : book.locate name = .ok index)
    {entry : Position × String} (hgrid : entry.1.inGrid) :
    (typed name entry).apply book = (book.writeAt index entry.1 (some entry.2)).1 := by
  rw [Command.apply, run_typed hindex hgrid]

/-- A write leaves the sheets in their places. -/
theorem places_writeAt (h : Valid book) (index : Nat) {p : Position} (hp : p.inGrid)
    (content : Option String) :
    (book.writeAt index p content).1.registry = book.registry ∧
      (book.writeAt index p content).1.names = book.names := by
  rcases hs : book.sheets[index]? with _ | sheet
  · rw [writeAt, hs]
    exact ⟨rfl, rfl⟩
  · have hagrees := agrees_writeAt h hs hp content
    exact ⟨hagrees.registry_eq,
      hagrees.names_eq.trans ((cellEdit_write p content).names_eq book index)⟩

theorem locate_writeAt (h : Valid book) (index : Nat) {p : Position} (hp : p.inGrid)
    (content : Option String) (name : String) :
    (book.writeAt index p content).1.locate name = book.locate name := by
  rw [locate, locate, position?, position?, (places_writeAt h index hp content).1]

/-- Contents that are copied are typed in one after the other. -/
theorem foldl_paste_eq {name : String} {index : Nat} {entries : List (Position × String)}
    (hentries : ∀ entry ∈ entries, entry.1.inGrid) {state : Workbook × List Announcement}
    (h : Valid state.1) (hindex : state.1.locate name = .ok index) :
    (entries.foldl (paste index) state).1 =
        (entries.map (typed name)).foldl Command.apply state.1 ∧
      (entries.foldl (paste index) state).1.names = state.1.names := by
  induction entries generalizing state with
  | nil => exact ⟨rfl, rfl⟩
  | cons entry entries ih =>
    have hgrid := hentries entry List.mem_cons_self
    have hnext : Valid (paste index state entry).1 :=
      (edited_writeAt h index hgrid (some entry.2)).valid
    have hlocate : (paste index state entry).1.locate name = .ok index :=
      (locate_writeAt h index hgrid (some entry.2) name).trans hindex
    obtain ⟨hrest, hrestNames⟩ :=
      ih (fun other hother => hentries other (List.mem_cons_of_mem _ hother)) hnext hlocate
    rw [List.map_cons, List.foldl_cons, List.foldl_cons, apply_typed hindex hgrid]
    exact ⟨hrest, hrestNames.trans (places_writeAt h index hgrid (some entry.2)).2⟩

/-- A sheet that is added has the last place. -/
theorem locate_append (h : Valid book) {name : String} (hname : nameFault? name = none)
    (hfree : ¬ book.HasSheet (upper name)) :
    (book.append name).book.locate name = .ok book.size := by
  have hadded : Valid (book.append name).book := (edited_append h hname hfree).valid
  have hregistered : (book.append name).book.registry[upper name]? = some book.size := by
    rw [indexed_iff.1 hadded.wired.indexed, (entries_append h hname hfree).1]
    simp [size, names]
  rw [locate, position?, hregistered]

/-! ## What a copy does -/

theorem moved_on (old new : String) (p : Position) :
    CellKey.moved (upper old) (upper new) (.on old p) = .on new p :=
  CellKey.moved_of_eq rfl

theorem exists_on {name : String} {key : CellKey} (h : key.sheet = upper name) :
    ∃ p, key = .on name p :=
  ⟨key.position, by rw [CellKey.on, ← h]⟩

/-- The sheet `copy` is new, and its cells have the entries of the sheet `original`. -/
structure Copied (original copy : String) (book book' : Workbook) : Prop where
  titled : book.HasSheet (upper original)
  free : ¬ book.HasSheet (upper copy)
  names_eq : book'.names = book.names ++ [copy]
  entryAt_eq : ∀ key,
    book'.entryAt key = book.entryAt (key.moved (upper copy) (upper original))

section Call

variable {index : Nat} {source : Sheet} (h : Valid book)
  (hs : book.sheets[index]? = some source) (hfree : ¬ book.HasSheet (upper copy))
include h hs hfree

/-- A cell of the new sheet that is not typed in is blank, as its original is. -/
theorem entryAt_moved_of_not_mem {key : CellKey}
    (hkey : ∀ entry ∈ source.contents, key ≠ .on copy entry.1) :
    book.entryAt (key.moved (upper copy) (upper source.name)) = book.entryAt key := by
  by_cases hon : key.sheet = upper copy
  · obtain ⟨p, rfl⟩ := exists_on hon
    have hblank : book.entryAt (.on copy p) = .blank :=
      entryAt_eq_blank h.wired fun hand => hfree hand.1
    rw [hblank, moved_on]
    apply entryAt_eq_blank_of_not_mem h.wired (List.mem_of_getElem? hs) rfl
    intro entry hmember heq
    exact hkey entry hmember (congrArg (CellKey.on copy) (CellKey.mk.inj heq).2)
  · rw [CellKey.moved_of_ne hon]

/-- The contents of a sheet are copied to a new one. -/
theorem copied_paste (hname : nameFault? copy = none) :
    let added := book.append copy
    let pasted := source.contents.foldl (paste book.size) (added.book, added.announcements)
    Copied source.name copy book pasted.1 := by
  intro added pasted
  have hmem := List.mem_of_getElem? hs
  have hadded : Valid added.book := (edited_append h hname hfree).valid
  obtain ⟨hnames, hentry⟩ := entries_append h hname hfree
  have hplace : added.book.locate copy = .ok book.size := locate_append h hname hfree
  have hsheet : added.book.HasSheet (upper copy) := by
    rw [HasSheet, hnames]
    exact List.mem_map_of_mem (by simp)
  let target (key : CellKey) : Cell :=
    book.entryAt (key.moved (upper copy) (upper source.name))
  have hcontents (entry : Position × String) (hmember : entry ∈ source.contents) :
      entry.1.inGrid ∧ Cell.ofContent (some entry.2) = target (.on copy entry.1) := by
    simp only [target, moved_on]
    exact ofContent_of_mem_contents h.wired hmem hmember
  have hothers (key : CellKey) (hkey : ∀ entry ∈ source.contents, key ≠ .on copy entry.1) :
      added.book.entryAt key = target key :=
    (hentry key).trans (entryAt_moved_of_not_mem h hs hfree hkey).symm
  obtain ⟨hpaste, hpasted⟩ : pasted.1 =
        (source.contents.map (typed copy)).foldl Command.apply added.book ∧
      pasted.1.names = added.book.names :=
    foldl_paste_eq (fun entry hmember => (hcontents entry hmember).1) hadded hplace
  obtain ⟨-, htyped⟩ := foldl_typed_spec hadded hsheet hcontents hothers
  refine ⟨hasSheet_of_getElem? hs, hfree, hpasted.trans hnames, fun key => ?_⟩
  rw [hpaste, htyped]

end Call

/-- A sheet of a valid workbook can be copied. The name of the copy is made of the name of the
    original as it is spelled there. -/
theorem copySheet_spec (h : Valid book) {name : String} (hname : book.HasSheet (upper name)) :
    ∃ source ∈ book.sheets, upper source.name = upper name ∧
      ∃ o, book.copySheet name = .ok o ∧
        o.result = (book.size, book.freeName (source.name ++ "_")) ∧
        Copied name o.result.2 book o.book := by
  obtain ⟨index, source, hlocate, hs, hsource⟩ := locate_of_hasSheet h.wired.indexed hname
  let copy := book.freeName (source.name ++ "_")
  have hallowed : nameFault? copy = none :=
    nameFault?_numbered_copy (h.allowed _ (List.mem_map_of_mem (List.mem_of_getElem? hs))) _
  have hfree : ¬ book.HasSheet (upper copy) := freeName_free h.wired.indexed _
  have hadd : book.addSheet (some (book.freeName (source.name ++ "_"))) = .ok (book.append copy) :=
    addSheet_eq_ok h.wired.indexed hallowed hfree
  have hcopied := copied_paste h hs hfree hallowed
  let added := book.append copy
  let pasted := source.contents.foldl (paste book.size) (added.book, added.announcements)
  refine ⟨source, List.mem_of_getElem? hs, hsource, ⟨added.result, pasted.1, pasted.2⟩, ?_, rfl, ?_⟩
  · simp only [copySheet, hlocate, hs, Option.getD_some, hadd, bind, Except.bind]
    rfl
  · obtain ⟨htitled, hfree, hnames, hentry⟩ := hcopied
    rw [hsource] at htitled
    simp only [hsource] at hentry
    exact ⟨htitled, hfree, hnames, hentry⟩

theorem copied_copySheet (h : Valid book) {name : String} (hname : book.HasSheet (upper name)) :
    ∃ o, book.copySheet name = .ok o ∧ o.result.1 = book.size ∧
      Copied name o.result.2 book o.book := by
  obtain ⟨_, -, -, o, ho, hresult, hcopied⟩ := copySheet_spec h hname
  exact ⟨o, ho, congrArg Prod.fst hresult, hcopied⟩

/-- The formula at `key` refers to the cell `source` without naming a sheet. -/
def RefersHere (book : Workbook) (key source : CellKey) : Prop :=
  ∃ e, book.Stores key e ∧ ∃ r ∈ e.references, r.sheet = none ∧ r.cell? key.sheet = some source

namespace Copied

variable (hc : Copied original copy book book')
include hc

theorem ne : upper original ≠ upper copy := fun heq => hc.free (heq ▸ hc.titled)

theorem hasSheet_iff (name : String) :
    book'.HasSheet name ↔ book.HasSheet name ∨ name = upper copy := by
  simp only [HasSheet, hc.names_eq, List.map_append, List.map_singleton, List.mem_append,
    List.mem_singleton]

theorem hasSheet_copy : book'.HasSheet (upper copy) :=
  (hc.hasSheet_iff _).2 (Or.inr rfl)

/-- Nothing is entered on other sheets. -/
theorem entryAt_of_ne {key : CellKey} (hkey : key.sheet ≠ upper copy) :
    book'.entryAt key = book.entryAt key := by
  rw [hc.entryAt_eq, CellKey.moved_of_ne hkey]

theorem entryAt_on (p : Position) : book'.entryAt (.on copy p) = book.entryAt (.on original p) := by
  rw [hc.entryAt_eq, moved_on]

/-- A cell of the copy has the entry of its original. -/
theorem entryAt_moved (key : CellKey) :
    book'.entryAt (key.moved (upper copy) (upper original)) = book'.entryAt key := by
  rw [hc.entryAt_of_ne (CellKey.sheet_moved_ne hc.ne.symm key), hc.entryAt_eq]

theorem formulaAt_moved (key : CellKey) :
    book'.formulaAt (key.moved (upper copy) (upper original)) = book'.formulaAt key := by
  rw [formulaAt_eq, hc.entryAt_moved, ← formulaAt_eq]

theorem stores_copy_iff (hi : book.Indexed) (hi' : book'.Indexed) (p : Position) (e : Expr) :
    book'.Stores (.on copy p) e ↔ book.Stores (.on original p) e := by
  rw [stores_iff hi', stores_iff hi, formulaAt_eq, hc.entryAt_on, ← formulaAt_eq]

/-- An unqualified reference of an original leads from copy to copy. -/
theorem refers_copy (hi : book.Indexed) (hi' : book'.Indexed) {p : Position} {source : CellKey}
    (hrefers : book.RefersHere (.on original p) source) :
    ∃ q, source = .on original q ∧ book'.Refers (.on copy p) (.on copy q) := by
  obtain ⟨e, he, r, hr, hsheet, hsource⟩ := hrefers
  obtain ⟨q, hq, hgrid, rfl⟩ := cell?_eq_some_iff.1 hsource
  rw [hsheet]
  refine ⟨q, rfl, e, (hc.stores_copy_iff hi hi' p e).2 he, r, hr,
    cell?_eq_some_iff.2 ⟨q, hq, hgrid, ?_⟩⟩
  rw [hsheet]
  rfl

theorem reaches_copy (hi : book.Indexed) (hi' : book'.Indexed) {p : Position} {source : CellKey}
    (hpath : TransGen book.RefersHere (.on original p) source) :
    ∃ q, source = .on original q ∧ TransGen book'.Refers (.on copy p) (.on copy q) := by
  induction hpath with
  | single hrefers =>
    obtain ⟨q, rfl, hcopied⟩ := hc.refers_copy hi hi' hrefers
    exact ⟨q, rfl, .single hcopied⟩
  | tail _ hrefers ih =>
    obtain ⟨q, rfl, hpath⟩ := ih
    obtain ⟨q', rfl, hcopied⟩ := hc.refers_copy hi hi' hrefers
    exact ⟨q', rfl, hpath.tail hcopied⟩

/-- An original is on a sheet exactly if its copy is. -/
theorem hasSheet_moved_iff (key : CellKey) :
    book'.HasSheet (key.moved (upper copy) (upper original)).sheet ↔
      book'.HasSheet key.sheet := by
  by_cases hon : key.sheet = upper copy
  · simp [CellKey.moved_of_eq hon, hon, hc.hasSheet_iff, hc.titled]
  · rw [CellKey.moved_of_ne hon]

/-! ## The same values -/

section Values

variable (hnew : ∀ key e, book.formulaAt key = some e → e.mentions copy = false)
include hnew

/-- No formula refers to the copy by its name after the call either. -/
theorem not_mentions {key : CellKey} {e : Expr} (he : book'.formulaAt key = some e) :
    e.mentions copy = false := by
  rw [formulaAt_eq, hc.entryAt_eq, ← formulaAt_eq] at he
  exact hnew _ e he

/-- In the place of the original, a reference means the original of the cell that it means in the
    copy. -/
theorem cell?_moved {key : CellKey} {e : Expr} (he : book'.formulaAt key = some e) {r : Reference}
    (hr : r ∈ e.references) :
    r.cell? (key.moved (upper copy) (upper original)).sheet =
      (r.cell? key.sheet).map (CellKey.moved (upper copy) (upper original)) := by
  rw [← cell?_renameSheet, CellKey.sheet_moved,
    cell?_renameSheet_of_not_mentions (hc.not_mentions hnew he) hr]

theorem refers_moved (h' : Wired book') {key source : CellKey}
    (hrefers : book'.Refers key source) :
    book'.Refers (key.moved (upper copy) (upper original))
      (source.moved (upper copy) (upper original)) := by
  obtain ⟨e, he, r, hr, hsource⟩ := hrefers
  rw [stores_iff h'.indexed] at he
  refine ⟨e, (stores_iff h'.indexed).2 ((hc.formulaAt_moved key).trans he), r, hr, ?_⟩
  rw [hc.cell?_moved hnew he hr, hsource]
  rfl

variable (h : Valid book) (h' : Valid book')
include h h'

/-- The other sheets are what they were. -/
theorem mirrored : Mirrored id (fun key => key.sheet ≠ upper copy) book book' := by
  refine mirrored_of_entryAt_eq h.wired h'.wired ?_ ?_ fun key hkey => hc.entryAt_of_ne hkey
  · intro key hkey
    rw [hc.hasSheet_iff, or_iff_left hkey]
  · intro key hkey source hread
    exact sheet_ne_of_mem_readsAt h.wired hnew hkey ((h.wired.readBy_iff (by simp)).1 hread)

variable (hcycles : ∀ p, book.OnReferenceCycle (.on original p) →
  TransGen book.RefersHere (.on original p) (.on original p))
include hcycles

/-- The copy has cycles where the original has them: a cycle through the copy never leaves it, and
    one through the original is copied if it never names a sheet. -/
theorem onCycle_moved_iff (key : CellKey) :
    book'.graph.OnCycle (key.moved (upper copy) (upper original)) ↔ book'.graph.OnCycle key := by
  by_cases hon : key.sheet = upper copy
  · obtain ⟨p, rfl⟩ := exists_on hon
    have hcopied : book'.graph.OnCycle (.on copy p) ↔ book'.OnReferenceCycle (.on copy p) :=
      onCycle_iff h'.wired
    rw [hcopied]
    constructor
    · intro hcycle
      rw [moved_on] at hcycle
      have hbefore := ((hc.mirrored hnew h h').onCycle_iff hc.ne).1 hcycle
      obtain ⟨q, hq, hpath⟩ := hc.reaches_copy h.wired.indexed h'.wired.indexed
        (hcycles p ((onCycle_iff h.wired).1 hbefore))
      obtain rfl : p = q := (CellKey.mk.inj hq).2
      exact hpath
    · intro hcycle
      rw [onCycle_iff h'.wired]
      exact TransGen.lift (CellKey.moved (upper copy) (upper original))
        (fun _ _ hrefers => hc.refers_moved hnew h'.wired hrefers) _ _ hcycle
  · rw [CellKey.moved_of_ne hon]

/-- The originals imitate their copies. -/
theorem imitates : Imitates (CellKey.moved (upper copy) (upper original)) (fun _ => True)
    book' book' := by
  constructor
  case closed => exact fun _ _ _ _ => trivial
  case onCycle_iff => exact fun key _ => hc.onCycle_moved_iff hnew h h' hcycles key
  case plain =>
    intro key _ hplain
    rw [valueAt_eq hplain, valueAt_eq ((hc.formulaAt_moved key).trans hplain), hc.entryAt_moved]
  case formula =>
    intro key _ e he
    refine ⟨e, (hc.formulaAt_moved key).trans he, fun hreads => ?_⟩
    obtain ⟨cell, hcell, -⟩ := exists_cellAt he
    have hhome := h'.wired.indexed.hasSheet_of_cellAt hcell
    exact value_map _ hhome ((hc.hasSheet_moved_iff key).2 hhome)
      (fun r hr => hc.cell?_moved hnew he hr) (fun _ _ source _ => hc.hasSheet_moved_iff source)
      fun r hr source hsource => hreads source ((h'.wired.mem_readsAt_iff he).2 ⟨r, hr, hsource⟩)

/-- A cell of the copy has the value of its original. -/
theorem valueAt_on (p : Position) :
    book'.valueAt (.on copy p) = book'.valueAt (.on original p) := by
  rw [← (hc.imitates hnew h h' hcycles).valueAt_eq h' h' trivial, moved_on]

end Values

/-! ## What a user sees -/

section Seen

variable {α : Type} {f f' : CellKey → α}

/-- What is asked of the copy is answered as it was of the original. -/
theorem answer_copy (hcells : ∀ p, f' (.on copy p) = f (.on original p)) (location : String) :
    book'.answer f' copy location = book.answer f original location := by
  rw [answer, answer, if_pos hc.titled, if_pos hc.hasSheet_copy]
  simp only [hcells]

theorem answer_of_ne {other : String} (hother : upper other ≠ upper copy)
    (hcells : ∀ p, f' (.on other p) = f (.on other p)) (location : String) :
    book'.answer f' other location = book.answer f other location := by
  simp only [answer, hc.hasSheet_iff, or_iff_left hother, hcells]

variable (h : Valid book) (h' : Valid book')
include h h'

theorem content_copy (location : String) :
    book'.content copy location = book.content original location := by
  rw [content_eq h'.wired.indexed, content_eq h.wired.indexed]
  exact hc.answer_copy (fun p => congrArg Cell.content? (hc.entryAt_on p)) location

theorem content_of_ne {other : String} (hother : upper other ≠ upper copy) (location : String) :
    book'.content other location = book.content other location := by
  rw [content_eq h'.wired.indexed, content_eq h.wired.indexed]
  exact hc.answer_of_ne hother (fun _ => congrArg Cell.content? (hc.entryAt_of_ne hother)) location

theorem extent_copy : book'.extent copy = book.extent original :=
  extent_congr h.wired h'.wired hc.titled hc.hasSheet_copy hc.entryAt_on

variable (hnew : ∀ key e, book.formulaAt key = some e → e.mentions copy = false)
include hnew

theorem value_of_ne {other : String} (hother : upper other ≠ upper copy) (location : String) :
    book'.value other location = book.value other location := by
  rw [value_eq h'.wired.indexed, value_eq h.wired.indexed]
  exact hc.answer_of_ne hother (fun _ => (hc.mirrored hnew h h').valueAt_eq h h' hother) location

theorem value_copy (hcycles : ∀ p, book.OnReferenceCycle (.on original p) →
    TransGen book.RefersHere (.on original p) (.on original p)) (location : String) :
    book'.value copy location = book.value original location := by
  have hvalue (p : Position) : book'.valueAt (.on copy p) = book.valueAt (.on original p) :=
    (hc.valueAt_on hnew h h' hcycles p).trans ((hc.mirrored hnew h h').valueAt_eq h h' hc.ne)
  rw [value_eq h'.wired.indexed, value_eq h.wired.indexed]
  exact hc.answer_copy hvalue location

end Seen

end Copied

/-- Every sheet of a reachable workbook can be copied, whatever the order in which its formulas read
    each other. The copy is the last sheet and has the contents and the extent of the original; its
    formulas are the same, so qualified references lead to the cells that they led to. No content
    of another sheet changes, and no value either if no formula refers to the name of the copy. If
    besides every cell of the original that is on a cycle is on one without qualified references,
    then the values of the copy are those of the original. -/
theorem copy_faithful (commands : List Command) {name : String}
    (hname : (after commands).HasSheet (upper name)) :
    let book := after commands
    ∃ o, book.copySheet name = .ok o ∧
      let copy := o.result.2
      o.result.1 = book.size ∧ o.book.names = book.names ++ [copy] ∧
      ¬ book.HasSheet (upper copy) ∧
      (∀ location, o.book.content copy location = book.content name location) ∧
      (∀ p e, o.book.Stores (.on copy p) e ↔ book.Stores (.on name p) e) ∧
      o.book.extent copy = book.extent name ∧
      (∀ other, upper other ≠ upper copy → ∀ location,
        o.book.content other location = book.content other location) ∧
      ((∀ key e, book.Stores key e → e.mentions copy = false) →
        (∀ other, upper other ≠ upper copy → ∀ location,
          o.book.value other location = book.value other location) ∧
        ((∀ p, book.OnReferenceCycle (.on name p) →
            TransGen book.RefersHere (.on name p) (.on name p)) →
          ∀ location, o.book.value copy location = book.value name location)) := by
  intro book
  have h : Valid book := valid_after commands
  obtain ⟨o, ho, hindex, hc⟩ := copied_copySheet h hname
  have h' : Valid o.book := (valid_copySheet h ho).1
  refine ⟨o, ho, hindex, hc.names_eq, hc.free, hc.content_copy h h',
    hc.stores_copy_iff h.wired.indexed h'.wired.indexed, hc.extent_copy h h',
    fun other hother => hc.content_of_ne h h' hother, fun hmentions => ?_⟩
  have hnew : ∀ key e, book.formulaAt key = some e → e.mentions o.result.2 = false :=
    fun key e he => hmentions key e ((stores_iff h.wired.indexed).2 he)
  exact ⟨fun other hother => hc.value_of_ne h h' hnew hother, hc.value_copy h h' hnew⟩

/-- A sheet with a formula that refers to itself is copied. -/
theorem copy_faithful_self_reference :
    let book := after [.addSheet (some "A"), .write "A" "A1" (some "=A1")]
    ∃ o, book.copySheet "A" = .ok o ∧
      ∀ location, o.book.value o.result.2 location = book.value "A" location := by
  let commands : List Command := [.addSheet (some "A"), .write "A" "A1" (some "=A1")]
  have h := valid_after commands
  have hname : nameFault? "A" = none := rfl
  have hlocation : Position.ofLocation "A1" = .ok ⟨0, 0⟩ := rfl
  obtain ⟨hnames, hentry⟩ := entries_first_write hname hlocation (some "=A1")
  have hformula : ∀ key e, (after commands).Stores key e → e = .ref ⟨none, "A1"⟩ := by
    intro key e he
    rw [stores_iff h.wired.indexed, formulaAt_eq, hentry] at he
    split at he
    · have hcontent : Cell.ofContent (some "=A1") = .formula "=A1" (.ref ⟨none, "A1"⟩) none := by
        with_unfolding_all rfl
      rw [hcontent] at he
      exact (Option.some.inj he).symm
    · simp [Cell.expr?] at he
  have hunqualified : (after commands).Refers ≤ (after commands).RefersHere := by
    rintro key source ⟨e, he, r, hr, hsource⟩
    obtain rfl := hformula key e he
    obtain rfl := List.mem_singleton.1 hr
    exact ⟨_, he, _, hr, rfl, hsource⟩
  have hsheet : (after commands).HasSheet (upper "A") := (hasSheet_of_names hnames _).2 rfl
  obtain ⟨o, ho, -, -, -, -, -, -, -, hvalues⟩ := copy_faithful commands hsheet
  refine ⟨o, ho, (hvalues fun key e he => ?_).2 fun p hcycle => ?_⟩
  · obtain rfl := hformula key e he
    rfl
  · exact TransGen.mono hunqualified _ _ hcycle

end Spreadsheet.Workbook
