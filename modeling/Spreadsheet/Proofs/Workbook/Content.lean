import Spreadsheet.Proofs.Workbook.Locality
import Spreadsheet.Proofs.Workbook.SheetHistory

/-!
# Cells agree with their contents in every workbook

Values are overwritten by recalculation and contents by renamings. All the same a stored cell is
what its content amounts to, and entering the content again gives the cell that is there.

Results:
* `Cell.Faithful`: a cell is what its content amounts to, apart from the value of its formula, and
  the content is stored as it would be stored again.
* `Refilled`, `Fills.refilled`: linking, marking cycles and recalculation give values to formulas
  and make places; they touch nothing else.
* `write_content`: entering the content of a cell again keeps every cell.
* `cells_match_contents`: all of it, for every reachable workbook.
-/

namespace Spreadsheet

namespace Cell

/-! ## One cell -/

/-- The cell is what its content amounts to, apart from the value of its formula, and the content is
    stored as it would be stored again. -/
structure Faithful (c : Cell) : Prop where
  content_eq : (ofContent c.content?).content? = c.content?
  kind_eq : (ofContent c.content?).kind = c.kind
  expr_eq : (ofContent c.content?).expr? = c.expr?
  targets_eq : (ofContent c.content?).targets = c.targets
  value_eq : c.kind ≠ .formula → (ofContent c.content?).value? = c.value?
  /-- A cell without content has nothing else either. -/
  nothing : c.content? = none → c = blank
  trimmed : ∀ text, c.content? = some text → trim text = text
  /-- An error that was typed is stored in its canonical spelling. -/
  spelled : ∀ text kind, c.content? = some text → ErrorKind.ofLiteral? text = some kind →
    text = kind.spelling
  /-- The formula is what its text reads as. -/
  parsed : ∀ e, c.expr? = some e → ∃ text, c.content? = some text ∧ Formula.parse text = .ok e

namespace Canonical

variable {c : Cell} (h : c.Canonical)
include h

theorem content?_ofContent : (ofContent c.content?).content? = c.content? := by
  rw [← h, content?_unevaluated]

theorem expr?_ofContent : (ofContent c.content?).expr? = c.expr? := by
  rw [← h, expr?_unevaluated]

theorem trim_content {text : String} (htext : c.content? = some text) : trim text = text := by
  have hagain := h.content?_ofContent
  rw [htext, ofContent] at hagain
  obtain hblank | ⟨kind, hkind⟩ | ⟨hsame, -⟩ := ofTrimmed_cases (trim text)
  · simp [hblank, content?] at hagain
  · obtain rfl : kind.spelling = text := by simpa [hkind, content?] using hagain
    exact trim_spelling kind
  · exact Option.some.inj (hsame.symm.trans hagain)

theorem faithful : c.Faithful where
  content_eq := h.content?_ofContent
  kind_eq := by rw [← h, kind_unevaluated]
  expr_eq := h.expr?_ofContent
  targets_eq := by rw [targets, h.expr?_ofContent, targets]
  value_eq hkind := by
    rw [← h]
    apply value?_unevaluated
    cases c with
    | formula content expr value => exact absurd rfl hkind
    | _ => rfl
  nothing := h.eq_blank
  trimmed _ := h.trim_content
  spelled text kind htext hkind := by
    have hagain := h.content?_ofContent
    rw [htext, ofContent, h.trim_content htext, ofTrimmed_of_ofLiteral? hkind] at hagain
    exact (Option.some.inj hagain).symm
  parsed e he := by
    rw [← h.expr?_ofContent] at he
    obtain ⟨text, htext, hparse⟩ := parse_of_ofContent he
    exact ⟨text, htext, h.trim_content htext ▸ hparse⟩

end Canonical

end Cell

/-! ## Linking and recalculation -/

/-- What a pass may do to a place of a sheet: nothing, or store a blank cell where none is stored,
    or give another value to a formula. -/
inductive Refilled : Option Cell → Option Cell → Prop
  | same (cell : Option Cell) : Refilled cell cell
  | place : Refilled none (some .blank)
  | formula (content : String) (expr : Formula.Expr) (value value' : Option CellValue) :
      Refilled (some (.formula content expr value)) (some (.formula content expr value'))

theorem Refilled.trans {a b c : Option Cell} (h : Refilled a b) (h' : Refilled b c) :
    Refilled a c := by
  cases h with
  | same => exact h'
  | place =>
    cases h' with
    | same => exact .place
  | formula content expr value value' =>
    cases h' with
    | same => exact .formula ..
    | formula => exact .formula ..

theorem refilled_modify {f : Sheet → Sheet} {sheets : List Sheet} {i : Nat}
    (hf : ∀ sheet q, sheets[i]? = some sheet → Refilled (sheet.cell? q) ((f sheet).cell? q))
    (j : Nat) (q : Position) : Refilled (cellIn sheets j q) (cellIn (sheets.modify i f) j q) := by
  rw [cellIn, cellIn, List.getElem?_modify]
  rcases hj : sheets[j]? with _ | sheet
  · exact .same none
  · by_cases hij : i = j
    · simpa [hij] using hf sheet q (hij ▸ hj)
    · simpa [hij] using Refilled.same (sheet.cell? q)

theorem refilled_ensure (sheet : Sheet) (p q : Position) :
    Refilled (sheet.cell? q) ((sheet.ensure p).cell? q) := by
  rw [Sheet.cell?_ensure]
  split
  · rename_i hq
    subst hq
    rcases sheet.cell? q with _ | cell
    · exact .place
    · exact .same (some cell)
  · exact .same _

theorem refilled_evaluated {sheet : Sheet} {p : Position} {e : Formula.Expr}
    (he : (sheet.cell? p).bind Cell.expr? = some e) (q : Position) (value : CellValue) :
    Refilled (sheet.cell? q) ((sheet.evaluated p value).cell? q) := by
  obtain ⟨cell, hcell, he⟩ := Option.bind_eq_some_iff.1 he
  obtain ⟨content, old, rfl⟩ := Cell.eq_formula_of_expr? he
  rw [Sheet.cell?_evaluated]
  split
  · rename_i hq
    rw [hq, hcell]
    exact .formula content e old (some value)
  · exact .same _

/-- Making places and evaluating formulas changes nothing but the values of formulas. -/
theorem Fills.refilled {sheets sheets' : List Sheet} (h : Fills sheets sheets') (i : Nat)
    (p : Position) : Refilled (cellIn sheets i p) (cellIn sheets' i p) := by
  induction h with
  | refl => exact .same _
  | ensure _ j q ih => exact ih.trans (refilled_modify (fun s r _ => refilled_ensure s q r) i p)
  | evaluated _ he value ih =>
    refine ih.trans (refilled_modify (fun s r hs => ?_) i p)
    rw [cellIn, hs, Option.bind_some] at he
    exact refilled_evaluated he r value

namespace Workbook

variable {book : Workbook}

/-! ## Entering a content again -/

/-- What a user sees is the entry of the cell that is named. -/
theorem exists_named_of_content (h : book.Indexed) {name location : String}
    {content : Option String} (hcontent : book.content name location = .ok content) :
    ∃ key, book.named? name location = some key ∧ (book.entryAt key).content? = content := by
  rw [content_eq h, answer] at hcontent
  split at hcontent
  · rename_i hname
    rcases hp : Position.ofLocation location with e | p
    · simp [hp] at hcontent
    · rw [hp] at hcontent
      exact ⟨.on name p, named?_eq_some_iff.2 ⟨hname, p, hp, rfl⟩, Except.ok.inj hcontent⟩
  · simp at hcontent

/-- What a user sees in a cell can be entered there again, and every cell keeps its content, its
    kind, its formula and its references. -/
theorem write_content (h : Valid book) {name location : String} {content : Option String}
    (hcontent : book.content name location = .ok content) :
    ∃ o, book.write name location content = .ok o ∧
      ∀ key, Kept (book.cellAt key) (o.book.cellAt key) := by
  obtain ⟨x, hx, rfl⟩ := exists_named_of_content h.wired.indexed hcontent
  obtain ⟨result, hrun, -, hentry⟩ := run_write h hx (book.entryAt x).content?
  obtain ⟨o, ho, rfl⟩ := map_eq_ok_iff.1 hrun
  obtain ⟨-, p, hp, rfl⟩ := named?_eq_some_iff.1 hx
  obtain ⟨p', hp', ha⟩ := agreeOff_write h ho
  obtain rfl : p' = p := Except.ok.inj (hp'.symm.trans hp)
  refine ⟨o, ho, fun key => ?_⟩
  by_cases hkey : key = .on name p'
  · subst hkey
    refine kept_of_entryAt ?_ (ha.stored _)
    rw [entryAt_eq_ofContent h.wired (.on name p')]
    exact (hentry _).trans (if_pos rfl)
  · exact ha.kept hkey

/-! ## Reachable workbooks -/

/-- Every stored cell of a reachable workbook is what its content amounts to, apart from the value
    of its formula, and the content is stored as it would be stored again. So a content that a user
    is shown can be entered again, and every cell stays what it was. Marking cycles and
    recalculation, in whatever workbook, give values to formulas and to nothing else. -/
theorem cells_match_contents (commands : List Command) :
    let book := after commands
    (∀ sheet ∈ book.sheets, ∀ p cell, sheet.cell? p = some cell → cell.Faithful) ∧
    (∀ name location content, book.content name location = .ok content →
      ∃ o, book.write name location content = .ok o ∧
        ∀ key, Kept (book.cellAt key) (o.book.cellAt key)) ∧
    ∀ (c : Condensation) (pass : Pass) (i : Nat) (p : Position),
      (∀ key, Refilled (cellIn pass.book.sheets i p)
        (cellIn (pass.markCycle c key).book.sheets i p)) ∧
      Refilled (cellIn pass.book.sheets i p) (cellIn (pass.recalculate c).book.sheets i p) := by
  have h := valid_after commands
  refine ⟨fun sheet hmem p cell hcell => ?_, fun name location content => write_content h,
    fun c pass i p => ⟨fun key => ?_, ?_⟩⟩
  · exact ((h.wired.sound sheet hmem).canonical p cell hcell).faithful
  · exact (Pass.fills_markCycle c pass key).refilled i p
  · exact (Pass.fills_recalculate c pass).refilled i p

end Workbook

end Spreadsheet
