import Spreadsheet.Proofs.Workbook.Values

/-!
# Formulas read what they declare

References are resolved twice, by different functions. The graph takes the targets of a formula,
which are in upper case, as locations in the grid; the evaluator takes addresses and names as they
were written. For everything that can be parsed both come to the same cells.

To see what is read, the evaluator is run with a question in place of every look-up, in any monad.
Without effects this is `Expr.scalar`; with a list of questions as its state it is a protocol of the
evaluation.

Results:
* `scalarWith_eq_scalar`: without effects, questions make no difference.
* `traced_eq`: an evaluation asks for each reference in the grid once, from left to right, whatever
  the answers are.
* `resolve_target_eq`: what is asked is what the graph has resolved.
* `formula_reads_declared`: the outcome of a formula follows from what its targets declare.
-/

namespace Spreadsheet

open Formula (Expr Lookup Reference Scalar Target)

namespace Formula

/-! ## Questions -/

/-- What an evaluation asks: a cell of the formula's own sheet, or of the sheet with this name. -/
inductive Query where
  | here (p : Position)
  | on (sheet : String) (p : Position)
deriving DecidableEq, Repr

/-- The cell that is asked for by a formula on the sheet `home`. -/
def Query.key (home : String) : Query → CellKey
  | here p => CellKey.on home p
  | on sheet p => CellKey.on sheet p

/-- The sheet that a target names, or else the formula's own. -/
def Target.sheet (home : String) : Target → String
  | here _ => home
  | on name _ => name

/-- The answer to a question. -/
def Lookup.answer (lookup : Lookup) : Query → Scalar
  | .here p => lookup.here p
  | .on sheet p => lookup.on sheet p

/-- The question of a reference; there is none outside the grid. -/
def Reference.query? (r : Reference) : Option Query :=
  match Position.ofAddress r.address with
  | .error _ => none
  | .ok p =>
    if p.inGrid then
      match r.sheet with
      | none => some (.here p)
      | some sheet => some (.on sheet.name p)
    else
      none

/-! ## Evaluation with questions -/

section Ask

variable {m : Type → Type} [Monad m] (ask : Query → m Scalar)

/-- `Lookup.read` with a question in place of the look-up. -/
def Reference.readWith (r : Reference) : m Scalar :=
  match Position.ofAddress r.address with
  | .error _ => pure (.error .reference)
  | .ok p =>
    if p.inGrid then
      match r.sheet with
      | none => ask (.here p)
      | some sheet => ask (.on sheet.name p)
    else
      pure (.error .reference)

/-- `Expr.scalar` with a question in place of each look-up. -/
def Expr.scalarWith : Expr → m Scalar
  | number _ value => pure (.number value)
  | text s => pure (.text s)
  | error kind => pure (.error kind)
  | ref r => r.readWith ask
  | signed sign operand => do
    let v ← operand.scalarWith
    return sign.apply v
  | binary op left right => do
    let l ← left.scalarWith
    let r ← right.scalarWith
    return op.apply l r
  | group inner => inner.scalarWith

end Ask

/-- Without effects this is evaluation. -/
theorem scalarWith_eq_scalar (lookup : Lookup) (e : Expr) :
    Id.run (e.scalarWith lookup.answer) = e.scalar lookup := by
  induction e with
  | signed sign operand ih =>
    rw [Expr.scalar, ← ih]
    rfl
  | binary op left right ihl ihr =>
    rw [Expr.scalar, ← ihl, ← ihr]
    rfl
  | group inner ih => exact ih
  | _ => rfl

/-- Answers a question and notes it. -/
def Lookup.noting (lookup : Lookup) (q : Query) : StateM (List Query) Scalar := do
  modify (· ++ [q])
  return lookup.answer q

/-- The outcome of a tree and what its evaluation asks, in order. -/
def Expr.traced (lookup : Lookup) (e : Expr) : Scalar × List Query :=
  Id.run ((e.scalarWith lookup.noting).run [])

variable {lookup : Lookup}

theorem readWith_noting (r : Reference) (asked : List Query) :
    (r.readWith lookup.noting).run asked = pure (lookup.read r, asked ++ r.query?.toList) := by
  unfold Reference.readWith Lookup.read Reference.query?
  rcases Position.ofAddress r.address with e | p
  · simp
  · by_cases hp : p.inGrid
    · rcases r.sheet with _ | sheet <;> simp [hp, Lookup.noting, Lookup.answer]
    · simp [hp]

/-- Evaluation goes through the references from left to right and asks for each of them once. -/
theorem scalarWith_noting (e : Expr) (asked : List Query) :
    (e.scalarWith lookup.noting).run asked =
      pure (e.scalar lookup, asked ++ e.references.filterMap Reference.query?) := by
  induction e generalizing asked with
  | ref r =>
    rw [Expr.scalarWith, readWith_noting, Expr.scalar, Expr.references]
    rcases hq : r.query? with _ | q <;> simp [hq]
  | signed sign operand ih => simp [Expr.scalarWith, Expr.scalar, Expr.references, ih]
  | binary op left right ihl ihr =>
    simp [Expr.scalarWith, Expr.scalar, Expr.references, ihl, ihr]
  | group inner ih => exact ih asked
  | _ => simp [Expr.scalarWith, Expr.scalar, Expr.references]

theorem traced_eq (lookup : Lookup) (e : Expr) :
    e.traced lookup = (e.scalar lookup, e.references.filterMap Reference.query?) := by
  rw [Expr.traced, scalarWith_noting]
  rfl

theorem read_eq (r : Reference) :
    lookup.read r = r.query?.elim (.error .reference) lookup.answer := by
  unfold Lookup.read Reference.query?
  rcases Position.ofAddress r.address with e | p
  · rfl
  · by_cases hp : p.inGrid
    · rcases r.sheet with _ | sheet <;> simp [hp, Lookup.answer]
    · simp [hp]

/-- Alone, a reference asks its question if it has one. -/
theorem traced_ref (lookup : Lookup) (r : Reference) :
    (Expr.ref r).traced lookup =
      (r.query?.elim (.error .reference) lookup.answer, r.query?.toList) := by
  rw [traced_eq, Expr.scalar, read_eq, Expr.references]
  rcases hq : r.query? with _ | q <;> simp [hq]

end Formula

open Formula (Query)

/-! ## Resolution -/

/-- The sheet of a formula may be named in any case. -/
theorem resolve_upper (home : String) (t : Target) : resolve (upper home) t = resolve home t := by
  have hon : CellKey.on (upper home) = CellKey.on home := funext (on_upper home)
  cases t with
  | here address => simp only [resolve, hon]
  | on sheet address => rfl

/-- What is asked for a reference is what its target is resolved to. -/
theorem resolve_target_eq (home : String) {r : Reference} (hr : Position.IsShape r.address) :
    resolve home r.target = r.query?.map (Query.key home) := by
  rw [← resolve_upper, resolve_target (upper_upper home) hr]
  unfold Reference.cell? Reference.query?
  rcases Position.ofAddress r.address with e | p
  · rfl
  · by_cases hp : p.inGrid
    · rcases r.sheet with _ | sheet <;> simp [hp, Query.key, CellKey.on]
    · simp [hp]

/-- A target means a cell of the sheet that it names, or of the formula's own. -/
theorem sheet_of_resolve {home : String} {t : Target} {key : CellKey}
    (h : resolve home t = some key) : key.sheet = upper (t.sheet home) := by
  cases t with
  | here address =>
    simp only [resolve, Option.map_eq_some_iff] at h
    obtain ⟨p, -, rfl⟩ := h
    rfl
  | on sheet address =>
    simp only [resolve, Option.map_eq_some_iff] at h
    obtain ⟨p, -, rfl⟩ := h
    rfl

/-- The cells that the targets of a formula mean are those that its evaluation asks for. -/
theorem resolved_targets {e : Expr} (he : e.Parsed) (home : String) :
    e.targets.filterMap (resolve home) =
      (e.references.filterMap Reference.query?).map (Query.key home) := by
  rw [Expr.targets, List.filterMap_map, List.map_filterMap]
  apply List.filterMap_congr
  intro r hr
  rw [Function.comp_apply, resolve_target_eq home (he.isShape hr)]

/-- The outcome of a formula follows from the answers to what its targets mean. -/
theorem scalar_eq_of_answers {e : Expr} (he : e.Parsed) (home : String) {l l' : Lookup}
    (h : ∀ q : Query, q.key home ∈ e.targets.filterMap (resolve home) → l.answer q = l'.answer q) :
    e.scalar l = e.scalar l' := by
  apply scalar_congr
  intro r hr
  rw [Formula.read_eq, Formula.read_eq]
  rcases hq : r.query? with _ | q
  · rfl
  · apply h
    rw [resolved_targets he]
    exact List.mem_map_of_mem (List.mem_filterMap.2 ⟨r, hr, hq⟩)

namespace Workbook

variable {book : Workbook}

/-- A workbook answers for the cell that is asked for, on whatever sheet. -/
theorem answer_lookup (h : book.Indexed) {home : String} {index : Nat} {sheet : Sheet}
    (hs : book.sheets[index]? = some sheet) (hname : upper sheet.name = upper home) (q : Query) :
    (book.lookup index).answer q =
      if book.HasSheet (q.key home).sheet then Scalar.ofCell (book.valueAt (q.key home))
      else .error .reference := by
  rw [lookup_eq_view h hs, hname]
  cases q with
  | here p =>
    have hhome : book.HasSheet (upper home) :=
      hasSheet_iff.2 ⟨sheet, List.mem_of_getElem? hs, hname⟩
    exact (if_pos hhome).symm
  | on name p => rfl

/-- A formula cannot tell proper values apart that are the same. -/
theorem ofCell_eq_of_agrees {v w : Option CellValue} (hv : ∀ x ∈ v, x.Proper)
    (hw : ∀ x ∈ w, x.Proper) (h : CellValue.agrees v w = true) :
    Scalar.ofCell v = Scalar.ofCell w := by
  rcases v with _ | v
  · rcases w with _ | w
    · rfl
    · simp [CellValue.agrees] at h
  · rcases w with _ | w
    · simp [CellValue.agrees] at h
    · cases v with
      | number m =>
        cases w with
        | number n =>
          have hm : m.Proper := hv _ rfl
          have hn : n.Proper := hw _ rfl
          rw [(Decimal.eq_iff_toRat_eq hm.normal hn.normal).2 (agrees_number_iff.1 h)]
        | _ => simp [CellValue.agrees, CellValue.same] at h
      | _ => cases w <;> simp_all [CellValue.agrees, CellValue.same, Scalar.ofCell]

/-- Formulas read what they declare. For every formula that can be parsed, on whatever sheet:

    * Two workbooks give it the same outcome and value if they agree on which of the sheets that its
      targets name there are, and on the values of the cells that its targets mean.
    * So do two look-ups that answer alike for these cells.
    * A reference asks for the one cell that its target means, and for nothing if its target means
      no cell; then it is a reference error, and only its target decides which.
    * An evaluation asks for the cells of its targets in their order, and for no others. -/
theorem formula_reads_declared {text : String} {e : Expr} (he : Formula.parse text = .ok e)
    (home : String) :
    let declared := e.targets.filterMap (resolve home)
    (∀ (commands commands' : List Command) (i j : Nat) (sheet sheet' : Sheet),
      let book := after commands
      let book' := after commands'
      book.sheets[i]? = some sheet → upper sheet.name = upper home →
      book'.sheets[j]? = some sheet' → upper sheet'.name = upper home →
      (∀ name address, .on name address ∈ e.targets →
        (book.HasSheet name ↔ book'.HasSheet name)) →
      (∀ key ∈ declared, CellValue.agrees (book.valueAt key) (book'.valueAt key) = true) →
      e.scalar (book.lookup i) = e.scalar (book'.lookup j) ∧
        e.value (book.lookup i) = e.value (book'.lookup j)) ∧
    (∀ l l' : Lookup, (∀ q : Query, q.key home ∈ declared → l.answer q = l'.answer q) →
      e.scalar l = e.scalar l' ∧ e.value l = e.value l') ∧
    (∀ r ∈ e.references,
      (resolve home r.target = none ∧
        ∀ l, (Expr.ref r).traced l = (.error .reference, [])) ∨
      ∃ q : Query, resolve home r.target = some (q.key home) ∧
        ∀ l, (Expr.ref r).traced l = (l.answer q, [q])) ∧
    ∀ l, (e.traced l).1 = e.scalar l ∧ (e.traced l).2.map (Query.key home) = declared := by
  intro declared
  have hparsed := Formula.parsed_of_parse he
  have hlookups (l l' : Lookup)
      (hanswers : ∀ q : Query, q.key home ∈ declared → l.answer q = l'.answer q) :
      e.scalar l = e.scalar l' ∧ e.value l = e.value l' := by
    have hscalar := scalar_eq_of_answers hparsed home hanswers
    exact ⟨hscalar, congrArg Scalar.toCell hscalar⟩
  refine ⟨?_, hlookups, fun r hr => ?_, fun l => ?_⟩
  · intro commands commands' i j sheet sheet' book book' hs hname hs' hname' hsheets hvalues
    have h := valid_after commands
    have h' := valid_after commands'
    apply hlookups
    intro q hq
    rw [answer_lookup h.wired.indexed hs hname, answer_lookup h'.wired.indexed hs' hname',
      ofCell_eq_of_agrees (proper_valueAt h _) (proper_valueAt h' _) (hvalues _ hq)]
    -- the sheet of a cell that a target means is named by the target, or it is `home`
    have hexists : book.HasSheet (q.key home).sheet ↔ book'.HasSheet (q.key home).sheet := by
      obtain ⟨t, ht, hkey⟩ := List.mem_filterMap.1 hq
      rw [sheet_of_resolve hkey]
      cases t with
      | here address =>
        exact iff_of_true (hasSheet_iff.2 ⟨sheet, List.mem_of_getElem? hs, hname⟩)
          (hasSheet_iff.2 ⟨sheet', List.mem_of_getElem? hs', hname'⟩)
      | on name address =>
        rw [Target.sheet, upper_of_mem_targets ht name address rfl]
        exact hsheets name address ht
    exact if_congr hexists rfl rfl
  · rw [resolve_target_eq home (hparsed.isShape hr)]
    simp only [Formula.traced_ref]
    rcases r.query? with _ | q
    · exact Or.inl ⟨rfl, fun _ => rfl⟩
    · exact Or.inr ⟨q, rfl, fun _ => rfl⟩
  · rw [Formula.traced_eq]
    exact ⟨rfl, (resolved_targets hparsed home).symm⟩

/-- A formula with a reference to another sheet and one to its own reads these two cells. -/
theorem formula_reads_declared_two_sheets :
    let e : Expr := .binary .add (.ref ⟨some ⟨"Other", false⟩, "a1"⟩) (.ref ⟨none, "B2"⟩)
    Formula.parse "=Other!a1+B2" = .ok e ∧
      ∀ l, (e.traced l).2.map (Query.key "Home") = [⟨"OTHER", ⟨0, 0⟩⟩, ⟨"HOME", ⟨1, 1⟩⟩] := by
  intro e
  have hparse : Formula.parse "=Other!a1+B2" = .ok e := by decide +kernel
  obtain ⟨-, -, -, htraced⟩ := formula_reads_declared hparse "Home"
  exact ⟨hparse, fun l => (htraced l).2.trans (by decide +kernel)⟩

end Workbook

end Spreadsheet
