import Spreadsheet.Cell
import Spreadsheet.Proofs.Formula.Parser

/-!
# Cells agree with their content

What a cell is follows from its content, apart from the value of a formula.

Results:
* `canonical_ofContent`: the content of a cell, entered again, gives the same cell.
* `Canonical`: a cell is what its content amounts to, apart from the value of its formula.
* `ofContent_toText`: the text of a formula makes a cell with this formula.
-/

namespace Spreadsheet.Cell

/-- The cell without the value of its formula. -/
def unevaluated : Cell → Cell
  | formula content expr _ => formula content expr none
  | c => c

/-- The cell is what its content amounts to, apart from the value of its formula. -/
def Canonical (c : Cell) : Prop :=
  c.unevaluated = ofContent c.content?

/-! ## Changing the value of a formula -/

theorem content?_evaluated (value : CellValue) (c : Cell) :
    (c.evaluated value).content? = c.content? := by
  cases c <;> rfl

theorem content?_unevaluated (c : Cell) : c.unevaluated.content? = c.content? := by
  cases c <;> rfl

theorem expr?_unevaluated (c : Cell) : c.unevaluated.expr? = c.expr? := by
  cases c <;> rfl

theorem value?_unevaluated {c : Cell} (h : c.expr? = none) : c.unevaluated.value? = c.value? := by
  cases c with
  | formula content expr value => simp [expr?] at h
  | _ => rfl

/-- A cell with a formula is the formula with its text and a value. -/
theorem eq_formula_of_expr? {c : Cell} {expr : Formula.Expr} (h : c.expr? = some expr) :
    ∃ content value, c = formula content expr value := by
  cases c with
  | formula content expr' value =>
    obtain rfl : expr' = expr := Option.some.inj h
    exact ⟨content, value, rfl⟩
  | _ => simp [expr?] at h

section Formula

variable {c : Cell} {expr : Formula.Expr} (h : c.expr? = some expr) (value : CellValue)
include h

theorem value?_evaluated : (c.evaluated value).value? = some value := by
  obtain ⟨content, old, rfl⟩ := eq_formula_of_expr? h
  rfl

/-- A formula with another value is the same formula. -/
theorem unevaluated_evaluated : (c.evaluated value).unevaluated = c.unevaluated := by
  obtain ⟨content, old, rfl⟩ := eq_formula_of_expr? h
  rfl

end Formula

/-! ## Entering a content again -/

theorem canonical_blank : Canonical blank :=
  rfl

theorem eq_hash_of_toUpper {c : Char} (h : c.toUpper = '#') : c = '#' := by
  unfold Char.toUpper at h
  split at h
  · -- a small letter does not become the mark
    rename_i hletter
    obtain ⟨hfirst, hlast⟩ := hletter
    have hcode := congrArg Char.toNat h
    simp only [Char.toNat, UInt32.toNat_add, UInt32.le_iff_toNat_le, Char.reduceVal,
      UInt32.reduceToNat, UInt32.reduceSub] at hcode hfirst hlast
    omega
  · exact h

/-- Every spelling of an error, in any case, starts with the same mark. -/
theorem toList_of_ofLiteral? {content : String} {kind : ErrorKind}
    (h : ErrorKind.ofLiteral? content = some kind) : ∃ cs, content.toList = '#' :: cs := by
  have hmatch : kind.spelling.toList.map Char.toUpper = content.toList.map Char.toUpper := by
    simpa [ErrorKind.matchesAnyCase] using List.find?_some h
  have hmark : (kind.spelling.toList.map Char.toUpper).head? = some '#' := by
    cases kind <;> rfl
  rw [hmatch, List.head?_map, Option.map_eq_some_iff] at hmark
  obtain ⟨c, hc, hupper⟩ := hmark
  obtain rfl := eq_hash_of_toUpper hupper
  obtain ⟨cs, hcs⟩ := List.head?_eq_some_iff.1 hc
  exact ⟨cs, hcs⟩

/-- An error in any case is stored in its canonical spelling; no other form comes first. -/
theorem ofTrimmed_of_ofLiteral? {content : String} {kind : ErrorKind}
    (h : ErrorKind.ofLiteral? content = some kind) :
    ofTrimmed content = literal kind.spelling (.error ⟨kind, kind.spelling⟩) := by
  obtain ⟨cs, hcs⟩ := toList_of_ofLiteral? h
  have hnumber : Decimal.ofText? content = none := by
    rw [Decimal.ofText?, Decimal.ofChars?, hcs, trimBlank_cons (by decide)]
    rfl
  rw [ofTrimmed, hcs]
  show ofLiteral content = _
  rw [ofLiteral, hnumber, h]

theorem trim_spelling (kind : ErrorKind) : trim kind.spelling = kind.spelling := by
  apply trim_of_ends
  · cases kind <;> rintro c ⟨⟩ <;> rfl
  · cases kind <;> rintro c ⟨⟩ <;> rfl

theorem ofContent_spelling (kind : ErrorKind) :
    ofContent (some kind.spelling) = literal kind.spelling (.error ⟨kind, kind.spelling⟩) := by
  rw [ofContent, trim_spelling]
  exact ofTrimmed_of_ofLiteral? (by cases kind <;> decide)

/-- What a trimmed content amounts to: nothing, an error in its canonical spelling, or a cell with
    just that content. -/
theorem ofTrimmed_cases (content : String) :
    ofTrimmed content = blank ∨
      (∃ kind : ErrorKind,
        ofTrimmed content = literal kind.spelling (.error ⟨kind, kind.spelling⟩)) ∨
      ((ofTrimmed content).content? = some content ∧
        (ofTrimmed content).unevaluated = ofTrimmed content) := by
  unfold ofTrimmed
  split
  · exact Or.inl rfl
  · exact Or.inl rfl
  · exact Or.inr (Or.inr ⟨rfl, rfl⟩)
  · unfold ofFormula
    split
    · exact Or.inr (Or.inr ⟨rfl, rfl⟩)
    · exact Or.inr (Or.inr ⟨rfl, rfl⟩)
  · unfold ofLiteral
    split
    · exact Or.inr (Or.inr ⟨rfl, rfl⟩)
    · split
      · rename_i kind _
        exact Or.inr (Or.inl ⟨kind, rfl⟩)
      · exact Or.inr (Or.inr ⟨rfl, rfl⟩)

/-- The content of a cell, entered again, gives the same cell. -/
theorem canonical_ofContent (content : Option String) : (ofContent content).Canonical := by
  cases content with
  | none => rfl
  | some content =>
    rw [ofContent]
    rcases ofTrimmed_cases (trim content) with h | ⟨kind, h⟩ | ⟨hcontent, hvalue⟩
    · rw [h]
      rfl
    · rw [h]
      exact (ofContent_spelling kind).symm
    · rw [Canonical, hcontent, hvalue, ofContent, trim_trim]

theorem unevaluated_ofContent (content : Option String) :
    (ofContent content).unevaluated = ofContent content := by
  cases content with
  | none => rfl
  | some content =>
    rw [ofContent]
    rcases ofTrimmed_cases (trim content) with h | ⟨kind, h⟩ | ⟨-, hvalue⟩
    · rw [h]
      rfl
    · rw [h]
      rfl
    · exact hvalue

theorem Canonical.evaluated {c : Cell} (h : c.Canonical) {expr : Formula.Expr}
    (he : c.expr? = some expr) (value : CellValue) : (c.evaluated value).Canonical := by
  rw [Canonical, unevaluated_evaluated he, content?_evaluated]
  exact h

theorem Canonical.eq_blank {c : Cell} (hc : c.Canonical) (h : c.content? = none) : c = blank := by
  rw [Canonical, h] at hc
  cases c with
  | blank => rfl
  | _ => simp [unevaluated, ofContent] at hc

/-! ## Formulas -/

/-- A content that makes a formula is the text of this formula. -/
theorem parse_of_ofContent {content : Option String} {e : Formula.Expr}
    (he : (ofContent content).expr? = some e) :
    ∃ text, content = some text ∧ Formula.parse (trim text) = .ok e := by
  have hparse {text : String} (h : (ofFormula text).expr? = some e) :
      Formula.parse text = .ok e := by
    unfold ofFormula at h
    split at h
    · rename_i hok
      obtain rfl : _ = e := Option.some.inj h
      exact hok
    · simp [expr?] at h
  have hliteral {text : String} : (ofLiteral text).expr? = none := by
    unfold ofLiteral
    split
    · rfl
    · split <;> rfl
  cases content with
  | none => simp [ofContent, expr?] at he
  | some text =>
    refine ⟨text, rfl, ?_⟩
    change (ofTrimmed (trim text)).expr? = some e at he
    unfold ofTrimmed at he
    split at he
    · simp [expr?] at he
    · simp [expr?] at he
    · simp [expr?] at he
    · exact hparse he
    · simp [hliteral] at he

/-- A cell with a formula was read from its content. -/
theorem Canonical.parsed {c : Cell} (hc : c.Canonical) {e : Formula.Expr} (he : c.expr? = some e) :
    e.Parsed := by
  rw [← expr?_unevaluated, hc] at he
  obtain ⟨text, -, hparse⟩ := parse_of_ofContent he
  exact Formula.parsed_of_parse hparse

/-- The text of a formula makes a cell with this formula. -/
theorem ofContent_toText {e : Formula.Expr} (h : e.Parsed) :
    ofContent (some e.toText) = formula e.toText e none := by
  have htrim : trim e.toText = e.toText := by
    rw [trim, h.trimBlank_toText, Formula.Expr.toText]
  have hlist : e.toText.toList = '=' :: e.print := by
    rw [Formula.Expr.toText, String.toList_ofList]
  rw [ofContent, htrim, ofTrimmed, hlist]
  show ofFormula e.toText = _
  rw [ofFormula, h.parse_toText]

end Spreadsheet.Cell
