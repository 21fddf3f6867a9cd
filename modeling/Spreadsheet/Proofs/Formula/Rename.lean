import Spreadsheet.Formula.Rename
import Spreadsheet.Proofs.Formula.Parser

/-!
# Renamed formulas

Results:
* `Expr.Parsed.renameSheet`: a renamed tree is read back from its text.
* `targets_renameSheet`: its targets are the old ones with the sheet renamed.
* `mentions_iff`: a tree mentions a sheet iff a target is on it.
* `mentions_renameSheet`: a renamed tree does not mention the old name.
* `mentions_congr`, `renameSheet_congr`: the name may be written in any case.
-/

namespace Spreadsheet.Formula

/-! ## Names that can be written down -/

theorem isPlainName_of_not_needsQuotes {name : String} (h : needsQuotes name = false) :
    IsPlainName name.toList := by
  unfold needsQuotes at h
  split at h
  · simp at h
  · rename_i c cs heq
    simp only [Bool.not_eq_false', Bool.and_eq_true, List.all_eq_true] at h
    exact ⟨c, cs, heq, h.1, h.2⟩

/-- A name without a quote can be written down with quotes where it needs them. -/
theorem wellFormed_of_needsQuotes {name : String} (h : '\'' ∉ name.toList) :
    SheetName.WellFormed ⟨name, needsQuotes name⟩ :=
  ⟨h, isPlainName_of_not_needsQuotes⟩

theorem SheetName.WellFormed.rename {sheet : SheetName} (h : sheet.WellFormed) (old : String)
    {new : String} (hnew : '\'' ∉ new.toList) : (sheet.rename old new).WellFormed := by
  apply wellFormed_of_needsQuotes
  split
  · exact hnew
  · exact h.quote_not_mem

theorem Expr.Parsed.renameSheet {e : Expr} (h : e.Parsed) (old : String) {new : String}
    (hnew : '\'' ∉ new.toList) : (e.renameSheet old new).Parsed := by
  rw [renameSheet_eq_mapSheet]
  exact h.mapSheet fun _ hsheet => hsheet.rename old hnew

/-! ## Targets -/

/-- The target with its sheet renamed; both names are in upper case. -/
def Target.rename (old new : String) : Target → Target
  | on sheet address => if sheet = old then on new address else on sheet address
  | t => t

theorem target_renameSheet (old new : String) (r : Reference) :
    (r.renameSheet old new).target = r.target.rename (upper old) (upper new) := by
  obtain ⟨_ | sheet, address⟩ := r
  · rfl
  · show Target.on (upper (sheet.rename old new).name) (upper address) = _
    simp only [SheetName.rename, SheetName.isNamed, sameSheet, beq_iff_eq, Reference.target,
      Target.rename]
    split <;> rfl

theorem references_renameSheet (old new : String) (e : Expr) :
    (e.renameSheet old new).references = e.references.map (·.renameSheet old new) := by
  induction e with
  | signed sign operand ih => simp [Expr.renameSheet, Expr.references, ih]
  | binary op left right ihl ihr => simp [Expr.renameSheet, Expr.references, ihl, ihr]
  | group inner ih => simp [Expr.renameSheet, Expr.references, ih]
  | _ => rfl

/-- The targets of a renamed tree are those of the tree, renamed one by one. -/
theorem targets_renameSheet (old new : String) (e : Expr) :
    (e.renameSheet old new).targets = e.targets.map (Target.rename (upper old) (upper new)) := by
  rw [Expr.targets, references_renameSheet, List.map_map, Expr.targets, List.map_map]
  apply List.map_congr_left
  intro r _
  exact target_renameSheet old new r

/-- A tree mentions a sheet iff one of its targets is on it. -/
theorem mentions_iff {sheet : String} {e : Expr} :
    e.mentions sheet ↔ ∃ address, Target.on (upper sheet) address ∈ e.targets := by
  induction e with
  | ref r =>
    obtain ⟨_ | name, address⟩ := r
    · simp [Expr.mentions, Expr.targets, Expr.references, Reference.target]
    · simp only [Expr.mentions, Option.any_some, SheetName.isNamed, sameSheet, beq_iff_eq,
        Expr.targets, Expr.references, List.map_cons, List.map_nil, Reference.target,
        List.mem_singleton, Target.on.injEq, exists_and_left, exists_eq, and_true]
      exact eq_comm
  | signed sign operand ih => exact ih
  | binary op left right ihl ihr =>
    simp only [Expr.mentions, Bool.or_eq_true, ihl, ihr, Expr.targets, Expr.references,
      List.map_append, List.mem_append, exists_or]
  | group inner ih => exact ih
  | _ => simp [Expr.mentions, Expr.targets, Expr.references]

/-- The targets of a tree that does not mention a sheet stay as they are when it is renamed. -/
theorem map_rename_of_not_mentions {sheet : String} {e : Expr} (h : e.mentions sheet = false)
    (new : String) : e.targets.map (Target.rename (upper sheet) new) = e.targets := by
  conv_rhs => rw [← List.map_id e.targets]
  apply List.map_congr_left
  intro t ht
  cases t with
  | here address => rfl
  | on name address =>
    have hne : name ≠ upper sheet := by
      rintro rfl
      rw [Bool.eq_false_iff] at h
      exact h (mentions_iff.2 ⟨address, ht⟩)
    simp [Target.rename, hne]

/-- A renamed tree does not mention the old name. -/
theorem mentions_renameSheet {old new : String} (hne : upper old ≠ upper new) (e : Expr) :
    (e.renameSheet old new).mentions old = false := by
  rw [Bool.eq_false_iff, Ne, mentions_iff]
  rintro ⟨address, hmem⟩
  rw [targets_renameSheet] at hmem
  obtain ⟨t, -, ht⟩ := List.mem_map.1 hmem
  cases t with
  | here address => simp [Target.rename] at ht
  | on name address' =>
    by_cases hname : name = upper old
    · simp only [Target.rename, if_pos hname, Target.on.injEq] at ht
      exact hne ht.1.symm
    · simp only [Target.rename, if_neg hname, Target.on.injEq] at ht
      exact hname ht.1

/-- No qualified reference of a tree leads to a sheet that it does not mention. -/
theorem upper_ne_of_not_mentions {name : String} {e : Expr} (h : e.mentions name = false)
    {r : Reference} (hr : r ∈ e.references) {sheet : SheetName} (hsheet : r.sheet = some sheet) :
    upper sheet.name ≠ upper name := by
  intro hsame
  rw [Bool.eq_false_iff, Ne, mentions_iff] at h
  refine h ⟨upper r.address, List.mem_map.2 ⟨r, hr, ?_⟩⟩
  obtain ⟨_, address⟩ := r
  obtain rfl : _ = some sheet := hsheet
  show Target.on (upper sheet.name) (upper address) = _
  rw [hsame]

/-! ## Names in any case -/

section AnyCase

variable {old old' : String} (h : upper old = upper old')
include h

theorem isNamed_congr (s : SheetName) : s.isNamed old = s.isNamed old' := by
  rw [SheetName.isNamed, SheetName.isNamed, sameSheet, sameSheet, h]

theorem mentions_congr (e : Expr) : e.mentions old = e.mentions old' := by
  induction e with
  | ref r =>
    rw [Expr.mentions, Expr.mentions]
    simp only [isNamed_congr h]
  | signed sign operand ih => exact ih
  | binary op left right ihl ihr => rw [Expr.mentions, Expr.mentions, ihl, ihr]
  | group inner ih => exact ih
  | _ => rfl

theorem renameSheet_congr (new : String) (e : Expr) :
    e.renameSheet old new = e.renameSheet old' new := by
  induction e with
  | ref r =>
    rw [Expr.renameSheet, Expr.renameSheet, Reference.renameSheet, Reference.renameSheet]
    simp only [SheetName.rename, isNamed_congr h]
  | signed sign operand ih => rw [Expr.renameSheet, Expr.renameSheet, ih]
  | binary op left right ihl ihr => rw [Expr.renameSheet, Expr.renameSheet, ihl, ihr]
  | group inner ih => rw [Expr.renameSheet, Expr.renameSheet, ih]
  | _ => rfl

end AnyCase

end Spreadsheet.Formula
