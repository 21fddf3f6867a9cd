import Spreadsheet.Proofs.Workbook.Reachable

/-!
# What a sheet goes through

Whatever is called on a workbook, its sheets change by edits of single sheets: a content is written,
a place is made, a formula gets a value, a sheet gets a new name. What these edits keep therefore
holds of every sheet of every reachable workbook and at every moment on the way.

Results:
* `Fills` is all that linking and recalculation do to the sheets, and they give values to formulas
  only: `fills_link`, `fills_markCycle`, `fills_recalculate` and `fills_settle`.
* `Sheet.Invariant` is a property that new sheets have and edits keep; `every_after` says that all
  sheets of reachable workbooks have it.
* `exists_history`: every sheet of a reachable workbook is a new sheet after some edits.
-/

namespace Spreadsheet

/-! ## Edits of one sheet -/

/-- An edit of a sheet. -/
inductive SheetEdit where
  | write (p : Position) (content : Option String)
  | ensure (p : Position)
  | evaluated (p : Position) (value : CellValue)
  | retitle (name : String)

/-- What an edit makes of a sheet. -/
def SheetEdit.apply (sheet : Sheet) : SheetEdit → Sheet
  | .write p content => sheet.write p content
  | .ensure p => sheet.ensure p
  | .evaluated p value => sheet.evaluated p value
  | .retitle name => { sheet with name := name }

namespace Sheet

/-- The sheet that edits make of a new one. -/
def after (name : String) (edits : List SheetEdit) : Sheet :=
  edits.foldl SheetEdit.apply (named name)

/-- New sheets have the property, and edits keep it. -/
structure Invariant (P : Sheet → Prop) : Prop where
  named : ∀ name, P (named name)
  apply : ∀ sheet edit, P sheet → P (SheetEdit.apply sheet edit)

theorem Invariant.after {P : Sheet → Prop} (hP : Invariant P) (name : String)
    (edits : List SheetEdit) : P (Sheet.after name edits) :=
  List.foldlRecOn edits SheetEdit.apply (hP.named name) fun _ h edit _ => hP.apply _ edit h

/-- To have a history is such a property. -/
theorem invariant_exists_after :
    Invariant fun sheet => ∃ name edits, sheet = Sheet.after name edits where
  named name := ⟨name, [], rfl⟩
  apply := by
    rintro _ edit ⟨name, edits, rfl⟩
    exact ⟨name, edits ++ [edit], by rw [after, after, List.foldl_append]; rfl⟩

end Sheet

/-! ## Linking and recalculation -/

/-- The cell at a position of the sheet at a place. -/
def cellIn (sheets : List Sheet) (i : Nat) (p : Position) : Option Cell :=
  (sheets[i]?).bind (·.cell? p)

/-- The sheets after places have been made and cells with formulas been given values. -/
inductive Fills (sheets : List Sheet) : List Sheet → Prop
  | refl : Fills sheets sheets
  | ensure {mid : List Sheet} (h : Fills sheets mid) (i : Nat) (p : Position) :
      Fills sheets (mid.modify i (·.ensure p))
  | evaluated {mid : List Sheet} (h : Fills sheets mid) {i : Nat} {p : Position} {e : Formula.Expr}
      (he : (cellIn mid i p).bind Cell.expr? = some e) (value : CellValue) :
      Fills sheets (mid.modify i (·.evaluated p value))

theorem Fills.trans {sheets mid last : List Sheet} (h : Fills sheets mid) (h' : Fills mid last) :
    Fills sheets last := by
  induction h' with
  | refl => exact h
  | ensure _ i p ih => exact ih.ensure i p
  | evaluated _ he value ih => exact ih.evaluated he value

/-- A loop of such steps is such a step. -/
theorem fills_foldl {α β : Type} (sheets : α → List Sheet) {f : α → β → α}
    (hf : ∀ a b, Fills (sheets a) (sheets (f a b))) (bs : List β) (a : α) :
    Fills (sheets a) (sheets (bs.foldl f a)) :=
  List.foldlRecOn bs f (motive := fun b => Fills (sheets a) (sheets b)) .refl
    fun b h c _ => h.trans (hf b c)

namespace Workbook

theorem fills_ensureAt (book : Workbook) (key : CellKey) :
    Fills book.sheets (book.ensureAt key).sheets := by
  unfold ensureAt
  split
  · exact Fills.refl.ensure _ _
  · exact .refl

theorem fills_linkFrom (reader : CellKey) (book : Workbook) (source : CellKey) :
    Fills book.sheets (linkFrom reader book source).sheets :=
  fills_ensureAt book source

theorem fills_link (book : Workbook) (key : CellKey) : Fills book.sheets (book.link key).sheets :=
  fills_foldl Workbook.sheets (fills_linkFrom key) _
    { book with graph := book.graph.disconnect key }

end Workbook

/-- A key is looked up on the sheet that the registry has for it. -/
theorem Workbook.cellAt_eq_cellIn {book : Workbook} {key : CellKey} {i : Nat}
    (hi : book.registry[key.sheet]? = some i) :
    book.cellAt key = cellIn book.sheets i key.position := by
  rw [cellAt, sheetOf?, hi, Option.bind_some, cellIn]

namespace Pass

variable (c : Condensation)

/-- A cell is given a value by `assign` without a test; here it is a formula. -/
theorem fills_assign (p : Pass) {i : Nat} {key : CellKey} {e : Formula.Expr}
    (hi : p.book.registry[key.sheet]? = some i)
    (he : (p.book.cellAt key).bind Cell.expr? = some e) (value : CellValue) :
    Fills p.book.sheets (p.assign i key value).book.sheets := by
  rw [Workbook.cellAt_eq_cellIn hi] at he
  exact Fills.refl.evaluated he value

theorem fills_mark (p : Pass) (key : CellKey) : Fills p.book.sheets (p.mark key).book.sheets := by
  unfold mark
  split
  · rename_i hi he
    exact fills_assign p hi he _
  · exact .refl

theorem fills_markCycle (p : Pass) (key : CellKey) :
    Fills p.book.sheets (markCycle c p key).book.sheets := by
  unfold markCycle
  split
  · exact fills_foldl (fun p : Pass => p.book.sheets) fills_mark _ p
  · exact .refl

theorem fills_evaluateNode (p : Pass) (key : CellKey) :
    Fills p.book.sheets (evaluateNode c p key).book.sheets := by
  unfold evaluateNode
  dsimp only
  split
  · rename_i i hi
    split
    · have hensure : Fills p.book.sheets (p.book.modifySheet i (·.ensure key.position)).sheets :=
        Fills.refl.ensure i key.position
      split
      · exact hensure
      · rename_i e he
        exact hensure.trans (fills_assign
          { p with book := p.book.modifySheet i (·.ensure key.position) } hi he _)
    · exact .refl
  · exact .refl

theorem fills_recalculate (p : Pass) : Fills p.book.sheets (p.recalculate c).book.sheets :=
  fills_foldl (fun p : Pass => p.book.sheets) (fills_evaluateNode c) _ p

end Pass

theorem Workbook.fills_settle (book : Workbook) (changes : Changes) (written : List CellKey) :
    Fills book.sheets (book.settle changes written).1.sheets := by
  have hmarked := fills_foldl (fun p : Pass => p.book.sheets)
    (Pass.fills_markCycle book.graph.condensation) written ⟨book, changes, {}⟩
  exact hmarked.trans (Pass.fills_recalculate _ _)

/-! ## All sheets of a workbook -/

/-- The sheets all have the property. -/
abbrev Every (P : Sheet → Prop) (sheets : List Sheet) : Prop :=
  ∀ sheet ∈ sheets, P sheet

section Every

variable {P : Sheet → Prop} (hP : Sheet.Invariant P) {sheets : List Sheet}
include hP

theorem Every.modify (h : Every P sheets) (i : Nat) (edit : SheetEdit) :
    Every P (sheets.modify i (SheetEdit.apply · edit)) := by
  intro sheet hmem
  obtain ⟨j, hj⟩ := List.getElem?_of_mem hmem
  rw [List.getElem?_modify] at hj
  obtain ⟨old, hold, rfl⟩ := Option.map_eq_some_iff.1 hj
  have hkept := h old (List.mem_of_getElem? hold)
  split
  · exact hP.apply old edit hkept
  · exact hkept

theorem Every.fills (h : Every P sheets) {sheets' : List Sheet} (hf : Fills sheets sheets') :
    Every P sheets' := by
  induction hf with
  | refl => exact h
  | ensure _ i p ih => exact Every.modify hP ih i (.ensure p)
  | @evaluated _ _ i p _ _ value ih => exact Every.modify hP ih i (.evaluated p value)

end Every

namespace Workbook

variable {P : Sheet → Prop} (hP : Sheet.Invariant P) {book : Workbook}
include hP

/-! ## Calls -/

theorem every_settle (h : Every P book.sheets) (changes : Changes) (written : List CellKey) :
    Every P (book.settle changes written).1.sheets :=
  h.fills hP (book.fills_settle changes written)

theorem every_writeAt (h : Every P book.sheets) (index : Nat) (p : Position)
    (content : Option String) : Every P (book.writeAt index p content).1.sheets := by
  unfold writeAt
  split
  · exact h
  · refine every_settle hP (Every.fills hP ?_ (fills_link _ _)) _ _
    exact Every.modify hP h index (.write p content)

theorem every_append (h : Every P book.sheets) (name : String) :
    Every P (book.append name).book.sheets := by
  refine every_settle hP ?_ _ _
  intro sheet hmem
  rcases List.mem_append.1 hmem with hmem | hmem
  · exact h sheet hmem
  · rw [List.mem_singleton.1 hmem]
    exact hP.named name

theorem every_addSheet (h : Every P book.sheets) {name : Option String} {o : Outcome (Nat × String)}
    (ho : book.addSheet name = .ok o) : Every P o.book.sheets := by
  unfold addSheet at ho
  split at ho
  · obtain rfl := Except.ok.inj ho
    exact every_append hP h _
  · split at ho
    · simp at ho
    · obtain rfl := Except.ok.inj ho
      exact every_append hP h _

theorem every_deleteSheet (h : Every P book.sheets) {name : String} {o : Outcome Unit}
    (ho : book.deleteSheet name = .ok o) : Every P o.book.sheets := by
  obtain ⟨index, -, ho⟩ := bind_eq_ok_iff.1 ho
  obtain rfl := Except.ok.inj ho
  exact every_settle hP (fun sheet hmem => h sheet (List.mem_of_mem_eraseIdx hmem)) _ _

theorem every_replaceFormula {state : Workbook × Changes} (h : Every P state.1.sheets)
    (formula : Nat × Position × String) :
    Every P (replaceFormula state formula).1.sheets := by
  unfold replaceFormula
  dsimp only
  split
  · exact h
  · exact Every.modify hP h _ (.write _ _)

theorem every_renameSheet (h : Every P book.sheets) {old new : String} {o : Outcome Unit}
    (ho : book.renameSheet old new = .ok o) : Every P o.book.sheets := by
  obtain ⟨index, -, ho⟩ := bind_eq_ok_iff.1 ho
  obtain ⟨_, -, ho⟩ := bind_eq_ok_iff.1 ho
  obtain rfl := Except.ok.inj ho
  refine every_settle hP (Every.fills hP ?_ (fills_foldl Workbook.sheets (fun book key =>
    (fills_ensureAt book key).trans (fills_link _ key)) _ _)) _ _
  refine List.foldlRecOn _ replaceFormula (motive := fun s => Every P s.1.sheets) ?_
    fun s hs formula _ => every_replaceFormula hP hs formula
  exact Every.modify hP h index (.retitle new)

theorem every_moveSheet (h : Every P book.sheets) {name : String} {target : Nat} {o : Outcome Unit}
    (ho : book.moveSheet name target = .ok o) : Every P o.book.sheets := by
  obtain ⟨index, -, ho⟩ := bind_eq_ok_iff.1 ho
  split at ho
  · simp at ho
  · obtain rfl := Except.ok.inj ho
    intro sheet hmem
    rcases List.eq_or_mem_of_mem_insertIdx hmem with rfl | hmem
    · rcases hs : book.sheets[index]? with _ | moved
      · exact hP.named name
      · exact h moved (List.mem_of_getElem? hs)
    · exact h sheet (List.mem_of_mem_eraseIdx hmem)

theorem every_copySheet (h : Every P book.sheets) {name : String} {o : Outcome (Nat × String)}
    (ho : book.copySheet name = .ok o) : Every P o.book.sheets := by
  obtain ⟨index, -, ho⟩ := bind_eq_ok_iff.1 ho
  obtain ⟨added, hadd, ho⟩ := bind_eq_ok_iff.1 ho
  obtain rfl := Except.ok.inj ho
  have hadded : Every P (added.book, added.announcements).1.sheets := every_addSheet hP h hadd
  exact List.foldlRecOn _ (paste added.result.1) (motive := fun s => Every P s.1.sheets) hadded
    fun s hs entry _ => every_writeAt hP hs _ _ _

/-- A call keeps the property for all sheets. -/
theorem every_run (h : Every P book.sheets) {c : Command}
    {result : Workbook × List Announcement} (hrun : c.run book = .ok result) :
    Every P result.1.sheets := by
  cases c with
  | addSheet name =>
    obtain ⟨o, ho, rfl⟩ := map_eq_ok_iff.1 hrun
    exact every_addSheet hP h ho
  | deleteSheet name =>
    obtain ⟨o, ho, rfl⟩ := map_eq_ok_iff.1 hrun
    exact every_deleteSheet hP h ho
  | renameSheet old new =>
    obtain ⟨o, ho, rfl⟩ := map_eq_ok_iff.1 hrun
    exact every_renameSheet hP h ho
  | moveSheet name target =>
    obtain ⟨o, ho, rfl⟩ := map_eq_ok_iff.1 hrun
    exact every_moveSheet hP h ho
  | copySheet name =>
    obtain ⟨o, ho, rfl⟩ := map_eq_ok_iff.1 hrun
    exact every_copySheet hP h ho
  | write sheet location content =>
    obtain ⟨o, ho, rfl⟩ := map_eq_ok_iff.1 hrun
    obtain ⟨⟨index, p⟩, -, ho⟩ := bind_eq_ok_iff.1 ho
    obtain rfl := Except.ok.inj ho
    exact every_writeAt hP h index p content
  | listen listener =>
    obtain rfl := Except.ok.inj hrun
    exact h

/-- A property that new sheets have and edits of sheets keep holds of all sheets of every reachable
    workbook. -/
theorem every_after (commands : List Command) : Every P (after commands).sheets := by
  refine List.foldlRecOn commands Command.apply (motive := fun book => Every P book.sheets) ?_
    fun book h c _ => ?_
  · exact fun sheet hmem => absurd hmem List.not_mem_nil
  · rw [Command.apply]
    rcases hrun : c.run book with e | result
    · exact h
    · exact every_run hP h hrun

omit hP in
/-- Every sheet of a reachable workbook has a history of edits. -/
theorem exists_history (commands : List Command) :
    ∀ sheet ∈ (after commands).sheets, ∃ name edits, sheet = Sheet.after name edits :=
  every_after Sheet.invariant_exists_after commands

end Workbook

end Spreadsheet
