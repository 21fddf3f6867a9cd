import Spreadsheet.Formula.Eval
import Spreadsheet.Proofs.Formula.Rename

/-!
# Renaming is a substitution

A renamed tree has the targets of the tree under the new name, it is read back from its text, and it
amounts to the same over cells that are found under the new name.

Results:
* `needsQuotes_iff`, `quoted_renameSheet`: which names of a renamed tree have quotes.
* `Lookup.Renames`: the cells of a sheet are found under its new name.
* `scalar_renameSheet`: a renamed tree amounts to the same if each reference reads the same.
* `renameSheet_substitutes`: what a rename makes of targets, quotes, text and value of a tree.
-/

namespace Spreadsheet.Formula

/-! ## Quotes -/

theorem needsQuotes_iff {name : String} :
    needsQuotes name = true ↔ ¬ IsPlainName name.toList := by
  constructor
  · rintro h ⟨c, tail, hname, hstart, htail⟩
    have hall : tail.all isNameChar = true := List.all_eq_true.2 htail
    rw [needsQuotes, hname] at h
    simp [hstart, hall] at h
  · intro h
    by_contra hplain
    exact h (isPlainName_of_not_needsQuotes (by simpa using hplain))

/-- Every sheet name of a renamed tree has quotes exactly if it needs them. -/
theorem quoted_renameSheet {old new : String} {e : Expr} {r : Reference}
    (hr : r ∈ (e.renameSheet old new).references) {sheet : SheetName}
    (hsheet : r.sheet = some sheet) :
    sheet.quoted = true ↔ ¬ IsPlainName sheet.name.toList := by
  rw [references_renameSheet] at hr
  obtain ⟨⟨written, address⟩, -, rfl⟩ := List.mem_map.1 hr
  obtain ⟨name, rfl, rfl⟩ := Option.map_eq_some_iff.1 hsheet
  rw [SheetName.rename, needsQuotes_iff]

/-! ## Values -/

/-- The cells that a tree may read, with the sheet `old` found under its new name. Other sheets are
    found under their own names. -/
structure Lookup.Renames (old new : String) (e : Expr) (l l' : Lookup) : Prop where
  here_eq : ∀ p, l'.here p = l.here p
  on_eq : ∀ r ∈ e.references, ∀ sheet, r.sheet = some sheet → ∀ p,
    l'.on (if upper sheet.name = upper old then new else sheet.name) p = l.on sheet.name p

theorem Lookup.Renames.read_eq {old new : String} {e : Expr} {l l' : Lookup}
    (h : l.Renames old new e l') {r : Reference} (hr : r ∈ e.references) :
    l'.read (r.renameSheet old new) = l.read r := by
  obtain ⟨written, address⟩ := r
  rw [read, read, Reference.renameSheet]
  rcases Position.ofAddress address with _ | p
  · rfl
  · by_cases hp : p.inGrid
    · cases written with
      | none => simp [hp, h.here_eq]
      | some sheet =>
        have hcell := h.on_eq _ hr sheet rfl p
        simp [hp, SheetName.rename, SheetName.isNamed, sameSheet, hcell]
    · simp [hp]

/-- A renamed tree amounts to the same if each reference reads the same. -/
theorem scalar_renameSheet {old new : String} {l l' : Lookup} {e : Expr}
    (h : ∀ r ∈ e.references, l'.read (r.renameSheet old new) = l.read r) :
    (e.renameSheet old new).scalar l' = e.scalar l := by
  induction e with
  | ref r => exact h r (List.mem_singleton_self r)
  | signed sign operand ih => rw [Expr.renameSheet, Expr.scalar, Expr.scalar, ih h]
  | binary op left right ihl ihr =>
    rw [Expr.renameSheet, Expr.scalar, Expr.scalar,
      ihl fun r hr => h r (List.mem_append_left _ hr),
      ihr fun r hr => h r (List.mem_append_right _ hr)]
  | group inner ih => rw [Expr.renameSheet, Expr.scalar, Expr.scalar, ih h]
  | _ => rfl

/-! ## The substitution -/

/-- What a rename makes of a tree that was read from a text, if the new name has no quote in it. The
    targets are the old ones with the sheet replaced, in their order. Names have quotes exactly if
    they need them. The tree is read back from its text. The old name is gone, unless it is the new
    one in other case. The tree amounts to the same over cells found under the new name. -/
theorem renameSheet_substitutes {text : String} {e : Expr} (h : parse text = .ok e)
    (old : String) {new : String} (hnew : '\'' ∉ new.toList) :
    let e' := e.renameSheet old new
    e'.targets = e.targets.map (Target.rename (upper old) (upper new)) ∧
      (∀ r ∈ e'.references, ∀ sheet, r.sheet = some sheet →
        (sheet.quoted = true ↔ ¬ IsPlainName sheet.name.toList)) ∧
      parse e'.toText = .ok e' ∧
      (upper old ≠ upper new → e'.mentions old = false) ∧
      ∀ l l' : Lookup, l.Renames old new e l' →
        e'.scalar l' = e.scalar l ∧ e'.value l' = e.value l := by
  intro e'
  refine ⟨targets_renameSheet old new e, fun r hr sheet hsheet => quoted_renameSheet hr hsheet,
    ((parsed_of_parse h).renameSheet old hnew).parse_toText, fun hne => mentions_renameSheet hne e,
    fun l l' hrenames => ?_⟩
  have hscalar : e'.scalar l' = e.scalar l :=
    scalar_renameSheet fun r hr => hrenames.read_eq hr
  exact ⟨hscalar, by rw [Expr.value, hscalar, Expr.value]⟩

/-- A name written in other case gives way to one with a blank, and a sheet that is named like a
    cell loses its quotes. -/
theorem renameSheet_substitutes_requoted :
    let joined (left right : SheetName) : Expr :=
      .binary .concat (.binary .concat (.ref ⟨some left, "A1"⟩) (.ref ⟨some right, "A1"⟩))
        (.ref ⟨none, "A1"⟩)
    let renamed := joined ⟨"new one", true⟩ ⟨"B2", false⟩
    parse "=x!A1&'B2'!A1&A1" = .ok (joined ⟨"x", false⟩ ⟨"B2", true⟩) ∧
      parse renamed.toText = .ok renamed ∧
      renamed.value ⟨fun _ => .blank, fun name _ => .text name⟩ = .text "new oneB2" := by
  intro joined renamed
  have h : parse "=x!A1&'B2'!A1&A1" = .ok (joined ⟨"x", false⟩ ⟨"B2", true⟩) := by decide +kernel
  have hnew : '\'' ∉ "new one".toList := by simp
  obtain ⟨-, -, hparse, -, hvalue⟩ := renameSheet_substitutes h "X" hnew
  have heq : (joined ⟨"x", false⟩ ⟨"B2", true⟩).renameSheet "X" "new one" = renamed := by
    decide +kernel
  rw [heq] at hparse hvalue
  let before : Lookup :=
    ⟨fun _ => .blank, fun name _ => .text (if upper name = upper "X" then "new one" else name)⟩
  have hrenames : before.Renames "X" "new one" (joined ⟨"x", false⟩ ⟨"B2", true⟩)
      ⟨fun _ => .blank, fun name _ => .text name⟩ := ⟨fun _ => rfl, fun _ _ _ _ _ => rfl⟩
  refine ⟨h, hparse, (hvalue _ _ hrenames).2.trans ?_⟩
  decide +kernel

end Spreadsheet.Formula
