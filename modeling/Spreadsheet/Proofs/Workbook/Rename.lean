import Spreadsheet.Proofs.Formula.Rename
import Spreadsheet.Proofs.Workbook.Edit

/-!
# Renaming a sheet

The sheet is renamed in four places: the registry, the nodes of the graph, the formulas that mention
it, and at last the formulas on it are linked anew. In between the graph is right everywhere but on
the renamed sheet, because the edges into other sheets move with the references.

Results:
* `moveNodes_spec`: every edge is moved at both ends.
* `cellAt_retitle`: the cells of the sheet are found under its new name.
* `resolve_rename`: a renamed reference means the moved cell.
* `edited_renameSheet`: renaming leads from valid workbooks to valid workbooks, and listeners are
  told of the cells whose value is another one than under the old name.
-/

namespace Spreadsheet

/-! ## Moving keys -/

/-- The key after a sheet was renamed; both names are in upper case. -/
def CellKey.moved (old new : String) (key : CellKey) : CellKey :=
  if key.sheet = old then { key with sheet := new } else key

variable {old new : String}

theorem CellKey.position_moved (key : CellKey) : (key.moved old new).position = key.position := by
  unfold CellKey.moved
  split <;> rfl

theorem CellKey.sheet_moved (key : CellKey) :
    (key.moved old new).sheet = if key.sheet = old then new else key.sheet := by
  unfold CellKey.moved
  split <;> rfl

theorem CellKey.moved_of_ne {key : CellKey} (h : key.sheet ≠ old) : key.moved old new = key :=
  if_neg h

theorem CellKey.moved_of_eq {key : CellKey} (h : key.sheet = old) :
    key.moved old new = ⟨new, key.position⟩ :=
  if_pos h

theorem CellKey.sheet_moved_ne (hne : old ≠ new) (key : CellKey) :
    (key.moved old new).sheet ≠ old := by
  by_cases h : key.sheet = old
  · rw [CellKey.moved_of_eq h]
    exact hne.symm
  · rwa [CellKey.moved_of_ne h]

/-- Keys that are not on the new sheet before stay different. -/
theorem CellKey.moved_injective {k k' : CellKey} (hk : k.sheet ≠ new) (hk' : k'.sheet ≠ new)
    (heq : k.moved old new = k'.moved old new) : k = k' := by
  have hposition := congrArg CellKey.position heq
  rw [CellKey.position_moved, CellKey.position_moved] at hposition
  have hsheet := congrArg CellKey.sheet heq
  have hsame : k.sheet = k'.sheet := by
    by_cases hold : k.sheet = old <;> by_cases hold' : k'.sheet = old
    · rw [hold, hold']
    · rw [CellKey.moved_of_eq hold, CellKey.moved_of_ne hold'] at hsheet
      exact absurd hsheet.symm hk'
    · rw [CellKey.moved_of_ne hold, CellKey.moved_of_eq hold'] at hsheet
      exact absurd hsheet hk
    · rwa [CellKey.moved_of_ne hold, CellKey.moved_of_ne hold'] at hsheet
  obtain ⟨name, p⟩ := k
  obtain ⟨name', p'⟩ := k'
  obtain rfl : name = name' := hsame
  obtain rfl : p = p' := hposition
  rfl

namespace Workbook

open Formula (Expr Target)

/-! ## The graph -/

section Graph

variable {g : DependencyGraph}

/-- Nodes are moved one after the other; the others stay. -/
theorem foldl_rename_spec (h : g.WellFormed) (hne : old ≠ new) {ks : List CellKey}
    (hnodup : ks.Nodup) (hks : ∀ k ∈ ks, k ∈ g.keys ∧ k.sheet = old) :
    let g' := ks.foldl (fun graph key => graph.rename key { key with sheet := new }) g
    let f : CellKey → CellKey := fun k => if k ∈ ks then k.moved old new else k
    g'.WellFormed ∧ g'.edges = g.edges.map (Prod.map f f) ∧
      ∀ k, k ∈ g'.keys ↔ ∃ k' ∈ g.keys, f k' = k := by
  induction ks generalizing g with
  | nil => simp [h]
  | cons key ks ih =>
    obtain ⟨hmem, hold⟩ := hks key List.mem_cons_self
    obtain ⟨hfresh, hnodup⟩ := List.nodup_cons.1 hnodup
    have htarget : ({ key with sheet := new } : CellKey) = key.moved old new :=
      (CellKey.moved_of_eq hold).symm
    have hdiffer : key ≠ key.moved old new := by
      intro heq
      exact CellKey.sheet_moved_ne hne key (heq ▸ hold)
    have hkeys (k : CellKey) : k ∈ (g.rename key (key.moved old new)).keys ↔
        k ≠ key ∧ (k ∈ g.keys ∨ k = key.moved old new) := by
      rw [DependencyGraph.keys_rename h hmem hdiffer, List.Nodup.mem_erase_iff,
        DependencyGraph.mem_insertKey]
      rw [← DependencyGraph.keys_add h]
      exact (h.add _).keys_nodup
    have hrest : ∀ k ∈ ks, k ∈ (g.rename key (key.moved old new)).keys ∧ k.sheet = old := by
      intro k hk
      obtain ⟨hk', hsheet⟩ := hks k (List.mem_cons_of_mem _ hk)
      refine ⟨(hkeys k).2 ⟨?_, Or.inl hk'⟩, hsheet⟩
      rintro rfl
      exact hfresh hk
    obtain ⟨hwell, hedges, hmoved⟩ := ih (h.rename key (key.moved old new)) hnodup hrest
    have hstays : key.moved old new ∉ ks := fun hk =>
      CellKey.sheet_moved_ne hne key (hks _ (List.mem_cons_of_mem _ hk)).2
    rw [List.foldl_cons, htarget]
    refine ⟨hwell, ?_, ?_⟩
    · rw [hedges, DependencyGraph.edges_rename h hmem hdiffer, Multiset.map_map]
      congr 1
      have hstep : ∀ k : CellKey,
          (if DependencyGraph.renamed key (key.moved old new) k ∈ ks then
            (DependencyGraph.renamed key (key.moved old new) k).moved old new
          else DependencyGraph.renamed key (key.moved old new) k) =
          if k ∈ key :: ks then k.moved old new else k := by
        intro k
        by_cases hk : k = key
        · rw [hk, DependencyGraph.renamed, if_pos rfl, if_neg hstays, if_pos List.mem_cons_self]
        · rw [DependencyGraph.renamed, if_neg hk]
          simp only [List.mem_cons, hk, false_or]
      funext e
      exact Prod.ext (hstep e.1) (hstep e.2)
    · intro k
      rw [hmoved]
      simp only [hkeys]
      constructor
      · rintro ⟨k', ⟨hk', hmem' | rfl⟩, rfl⟩
        · exact ⟨k', hmem', by simp [hk']⟩
        · exact ⟨key, hmem, by simp [hstays]⟩
      · rintro ⟨k', hk', rfl⟩
        by_cases heq : k' = key
        · rw [heq]
          exact ⟨key.moved old new, ⟨hdiffer.symm, Or.inr rfl⟩, by simp [hstays]⟩
        · exact ⟨k', ⟨heq, Or.inl hk'⟩, by simp [heq]⟩

variable (h : g.WellFormed) (hne : old ≠ new)
include h hne

theorem moveNodes_spec :
    (moveNodes g old new).WellFormed ∧
      (moveNodes g old new).edges =
        g.edges.map (Prod.map (CellKey.moved old new) (CellKey.moved old new)) ∧
      ∀ k, k ∈ (moveNodes g old new).keys ↔ ∃ k' ∈ g.keys, k'.moved old new = k := by
  have hks : ∀ k ∈ g.keys.filter (·.sheet == old), k ∈ g.keys ∧ k.sheet = old := by
    intro k hk
    simpa using hk
  obtain ⟨hwell, hedges, hkeys⟩ := foldl_rename_spec h hne (h.keys_nodup.filter _) hks
  have hmove : ∀ k ∈ g.keys,
      (if k ∈ g.keys.filter (·.sheet == old) then k.moved old new else k) = k.moved old new := by
    intro k hk
    by_cases hold : k.sheet = old
    · simp [hk, hold]
    · simp [hold, CellKey.moved]
  refine ⟨hwell, ?_, ?_⟩
  · rw [moveNodes, hedges]
    apply Multiset.map_congr rfl
    rintro ⟨u, v⟩ he
    obtain ⟨hu, hv⟩ := DependencyGraph.mem_keys_of_mem_edges h he
    exact Prod.ext (hmove u hu) (hmove v hv)
  · intro k
    rw [moveNodes, hkeys]
    constructor
    · rintro ⟨k', hk', rfl⟩
      exact ⟨k', hk', (hmove k' hk').symm⟩
    · rintro ⟨k', hk', rfl⟩
      exact ⟨k', hk', hmove k' hk'⟩

/-- What a cell reads moves if the cell is on another sheet. -/
theorem sourcesOf_moveNodes {key : CellKey} (hold : key.sheet ≠ old) (hnew : key.sheet ≠ new) :
    (moveNodes g old new).sourcesOf key = (g.sourcesOf key).map (CellKey.moved old new) := by
  rw [DependencyGraph.sourcesOf, (moveNodes_spec h hne).2.1, Multiset.filter_map, Multiset.map_map,
    DependencyGraph.sourcesOf, Multiset.map_map]
  have hfilter : g.edges.filter ((·.2 = key) ∘ Prod.map (CellKey.moved old new)
      (CellKey.moved old new)) = g.edges.filter (·.2 = key) := by
    apply Multiset.filter_congr
    rintro ⟨u, v⟩ -
    change v.moved old new = key ↔ v = key
    by_cases hv : v.sheet = old
    · rw [CellKey.moved_of_eq hv]
      constructor
      · rintro rfl
        exact absurd rfl hnew
      · rintro rfl
        exact absurd hv hold
    · rw [CellKey.moved_of_ne hv]
  rw [hfilter]
  rfl

/-- Nothing leads to the old name. -/
theorem sourcesOf_moveNodes_old {key : CellKey} (hold : key.sheet = old) :
    (moveNodes g old new).sourcesOf key = 0 := by
  rw [DependencyGraph.sourcesOf, (moveNodes_spec h hne).2.1, Multiset.map_eq_zero,
    Multiset.filter_eq_nil]
  rintro e he rfl
  obtain ⟨e', -, rfl⟩ := Multiset.mem_map.1 he
  exact CellKey.sheet_moved_ne hne e'.2 hold

end Graph

/-! ## The sheet under its new name -/

/-- The workbook with a sheet renamed and its nodes moved, but with the old formulas. -/
def retitle (book : Workbook) (index : Nat) (old new : String) : Workbook :=
  { book.modifySheet index ({ · with name := new }) with
    registry := (book.registry.erase (upper old)).insert (upper new) index
    graph := moveNodes book.graph (upper old) (upper new) }

section Retitle

variable {book : Workbook} {index : Nat} {sheet : Sheet}
  (hs : book.sheets[index]? = some sheet)
include hs

theorem hasSheet_of_getElem? : book.HasSheet (upper sheet.name) :=
  hasSheet_iff.2 ⟨sheet, List.mem_of_getElem? hs, rfl⟩

theorem getElem?_retitle (i : Nat) :
    (book.retitle index sheet.name new).sheets[i]? =
      if index = i then some { sheet with name := new } else book.sheets[i]? := by
  change (book.modifySheet index _).sheets[i]? = _
  rw [getElem?_modifySheet]
  split
  · rename_i hi
    rw [← hi, hs]
    rfl
  · rfl

theorem mem_retitle {s : Sheet} (hmem : s ∈ (book.retitle index sheet.name new).sheets) :
    s = { sheet with name := new } ∨ s ∈ book.sheets := by
  obtain ⟨i, hi⟩ := List.getElem?_of_mem hmem
  rw [getElem?_retitle hs] at hi
  split at hi
  · exact Or.inl (Option.some.inj hi).symm
  · exact Or.inr (List.mem_of_getElem? hi)

theorem sound_retitle (hsound : ∀ s ∈ book.sheets, s.Sound) :
    ∀ s ∈ (book.retitle index sheet.name new).sheets, s.Sound := by
  intro s hmem
  rcases mem_retitle hs hmem with rfl | hmem
  · have hold := hsound sheet (List.mem_of_getElem? hs)
    exact ⟨⟨hold.rows, hold.cols⟩, hold.canonical⟩
  · exact hsound s hmem

variable (h : book.Indexed) (hfree : ¬ book.HasSheet (upper new))
include h hfree

theorem indexed_retitle : (book.retitle index sheet.name new).Indexed := by
  intro name i
  rw [getElem?_retitle hs]
  simp only [retitle, Std.HashMap.getElem?_insert, Std.HashMap.getElem?_erase, beq_iff_eq]
  by_cases hi : index = i
  · subst hi
    rw [if_pos rfl]
    by_cases hnew : upper new = name
    · simp [hnew]
    · rw [if_neg hnew]
      by_cases hold : upper sheet.name = name
      · simp [hold, hnew]
      · have hother : book.registry[name]? ≠ some index := by
          rw [Ne, h name index, hs]
          rintro ⟨s, hsome, hname⟩
          obtain rfl := Option.some.inj hsome
          exact hold hname
        simp [hold, hnew, hother]
  · rw [if_neg hi]
    by_cases hnew : upper new = name
    · rw [if_pos hnew]
      refine iff_of_false (by simpa using hi) ?_
      rintro ⟨s, hsi, hname⟩
      exact hfree (hasSheet_iff.2 ⟨s, List.mem_of_getElem? hsi, hname.trans hnew.symm⟩)
    · rw [if_neg hnew]
      by_cases hold : upper sheet.name = name
      · rw [if_pos hold]
        refine iff_of_false (by simp) ?_
        rintro ⟨s, hsi, hname⟩
        exact hi (h.eq_of_upper_eq hs hsi (hold.trans hname.symm))
      · rw [if_neg hold]
        exact h name i

theorem hasSheet_retitle (name : String) :
    (book.retitle index sheet.name new).HasSheet name ↔
      name = upper new ∨ (book.HasSheet name ∧ name ≠ upper sheet.name) := by
  have hreg (n : String) : (book.retitle index sheet.name new).registry[n]? =
      if upper new = n then some index
      else if upper sheet.name = n then none else book.registry[n]? := by
    simp only [retitle, Std.HashMap.getElem?_insert, Std.HashMap.getElem?_erase, beq_iff_eq]
  rw [(indexed_retitle hs h hfree).hasSheet_iff_registry, h.hasSheet_iff_registry]
  simp only [hreg]
  by_cases hnew : upper new = name
  · simp [hnew]
  · by_cases hold : upper sheet.name = name
    · simp [hold, hnew, Ne.symm hnew]
    · simp [hold, hnew, Ne.symm hold, Ne.symm hnew]

/-- The cells of the sheet are found under its new name, and all others where they were. -/
theorem cellAt_retitle (key : CellKey) :
    (book.retitle index sheet.name new).cellAt key =
      if key.sheet = upper new then book.cellAt ⟨upper sheet.name, key.position⟩
      else if key.sheet = upper sheet.name then none else book.cellAt key := by
  have h' := indexed_retitle hs h hfree
  by_cases hnew : key.sheet = upper new
  · rw [if_pos hnew]
    have hmem : { sheet with name := new } ∈ (book.retitle index sheet.name new).sheets := by
      apply List.mem_of_getElem? (i := index)
      rw [getElem?_retitle hs, if_pos rfl]
    rw [h'.cellAt_eq hmem hnew.symm, h.cellAt_eq (List.mem_of_getElem? hs) rfl]
    rfl
  · rw [if_neg hnew]
    by_cases hold : key.sheet = upper sheet.name
    · rw [if_pos hold]
      apply h'.cellAt_eq_none
      rw [hasSheet_retitle hs h hfree]
      rintro (hname | hname)
      · exact hnew hname
      · exact hname.2 hold
    · rw [if_neg hold]
      apply cellAt_congr h h'
      intro s hname
      simp only [List.mem_iff_getElem?, getElem?_retitle hs]
      constructor
      · rintro ⟨i, hi⟩
        split at hi
        · obtain rfl := Option.some.inj hi
          exact absurd hname.symm hnew
        · exact ⟨i, hi⟩
      · rintro ⟨i, hi⟩
        refine ⟨i, ?_⟩
        rw [if_neg, hi]
        rintro rfl
        rw [hs] at hi
        obtain rfl := Option.some.inj hi
        exact hold hname.symm

end Retitle

/-! ## Formulas -/

/-- The text that takes the place of the formula at a key; none if it does not mention the sheet. -/
def renamedText (book : Workbook) (old new : String) (key : CellKey) : Option String :=
  match book.formulaAt key with
  | none => none
  | some e => if e.mentions old then some (e.renameSheet old new).toText else none

section Formulas

variable {book b : Workbook}

theorem renamedText_eq_some_iff {key : CellKey} {text : String} :
    book.renamedText old new key = some text ↔
      ∃ e, book.formulaAt key = some e ∧ e.mentions old ∧
        (e.renameSheet old new).toText = text := by
  unfold renamedText
  rcases book.formulaAt key with _ | e
  · simp
  · by_cases hmentions : e.mentions old <;> simp [hmentions]

theorem mem_renamedFormulas (h : book.Indexed) {i : Nat} {p : Position} {text : String} :
    (i, p, text) ∈ book.renamedFormulas old new ↔
      ∃ sheet, book.sheets[i]? = some sheet ∧
        book.renamedText old new (.on sheet.name p) = some text := by
  have hcell {sheet : Sheet} (hs : book.sheets[i]? = some sheet) :
      book.formulaAt (.on sheet.name p) = (sheet.cell? p).bind Cell.expr? := by
    rw [formulaAt, h.cellAt_eq (List.mem_of_getElem? hs) rfl]
    rfl
  rw [renamedFormulas, List.mem_flatMap]
  constructor
  · rintro ⟨⟨sheet, j⟩, hsheet, hentry⟩
    obtain ⟨⟨q, cell⟩, hq, hentry⟩ := List.mem_filterMap.1 hentry
    rw [List.mem_zipIdx_iff_getElem?] at hsheet
    rw [Std.TreeMap.mem_toList_iff_getElem?_eq_some] at hq
    dsimp only at hsheet hentry
    split at hentry
    · simp at hentry
    · rename_i e he
      split at hentry
      · rename_i hmentions
        obtain ⟨rfl, rfl, rfl⟩ : j = i ∧ q = p ∧ (e.renameSheet old new).toText = text := by
          simpa using hentry
        refine ⟨sheet, hsheet, renamedText_eq_some_iff.2 ⟨e, ?_, hmentions, rfl⟩⟩
        rw [hcell hsheet, Sheet.cell?, hq]
        exact he
      · simp at hentry
  · rintro ⟨sheet, hs, htext⟩
    obtain ⟨e, he, hmentions, rfl⟩ := renamedText_eq_some_iff.1 htext
    rw [hcell hs] at he
    obtain ⟨cell, hq, hexpr⟩ := Option.bind_eq_some_iff.1 he
    refine ⟨(sheet, i), List.mem_zipIdx_iff_getElem?.2 hs, List.mem_filterMap.2 ⟨(p, cell), ?_, ?_⟩⟩
    · exact Std.TreeMap.mem_toList_iff_getElem?_eq_some.2 hq
    · simp [hexpr, hmentions]

/-- The workbook in which the formulas at the keys `done` have their texts replaced. -/
structure Replaced (book : Workbook) (text : CellKey → Option String) (done : List CellKey)
    (b : Workbook) : Prop where
  indexed : b.Indexed
  names_eq : b.names = book.names
  graph_eq : b.graph = book.graph
  listeners_eq : b.listeners = book.listeners
  sound : ∀ sheet ∈ b.sheets, sheet.Sound
  cellAt_eq : ∀ key, b.cellAt key =
    if key ∈ done then some (Cell.ofContent (text key)) else book.cellAt key

/-- The key of a formula in the list of renamed formulas. -/
def entryKey? (book : Workbook) (entry : Nat × Position × String) : Option CellKey :=
  (book.sheets[entry.1]?).map fun sheet => .on sheet.name entry.2.1

theorem entryKey?_of_mem (h : book.Indexed) {entry : Nat × Position × String}
    (hentry : entry ∈ book.renamedFormulas old new) :
    ∃ key, book.entryKey? entry = some key ∧ book.renamedText old new key = some entry.2.2 := by
  obtain ⟨i, p, t⟩ := entry
  obtain ⟨sheet, hs, htext⟩ := (mem_renamedFormulas h).1 hentry
  exact ⟨.on sheet.name p, by rw [entryKey?, hs]; rfl, htext⟩

/-- The list has all formulas that mention the sheet. -/
theorem mem_entryKeys_iff (h : book.Indexed) {key : CellKey} :
    key ∈ (book.renamedFormulas old new).filterMap book.entryKey? ↔
      (book.renamedText old new key).isSome := by
  rw [List.mem_filterMap]
  constructor
  · rintro ⟨entry, hentry, hkey⟩
    obtain ⟨key', hkey', htext⟩ := entryKey?_of_mem h hentry
    rw [hkey] at hkey'
    rw [Option.some.inj hkey', htext]
    rfl
  · intro hsome
    obtain ⟨t, htext⟩ := Option.isSome_iff_exists.1 hsome
    obtain ⟨e, he, -⟩ := renamedText_eq_some_iff.1 htext
    obtain ⟨cell, hc, -⟩ := exists_cellAt he
    obtain ⟨sheet, hmem, hname, -⟩ := h.cellAt_eq_some_iff.1 hc
    obtain ⟨i, hs⟩ := List.getElem?_of_mem hmem
    have hkey : CellKey.on sheet.name key.position = key := by
      rw [CellKey.on, hname]
    refine ⟨(i, key.position, t), (mem_renamedFormulas h).2 ⟨sheet, hs, ?_⟩, ?_⟩
    · rw [hkey]
      exact htext
    · rw [entryKey?, hs, ← hkey]
      rfl

variable {text : CellKey → Option String} {done : List CellKey} {changes : Changes}
  {before : CellKey → Option CellValue}

/-- One text is replaced; the value before is noted first. -/
theorem Replaced.replaceFormula (h : Replaced book text done b) (ht : Tracks before b changes)
    {entry : Nat × Position × String} {key : CellKey} (hkey : book.entryKey? entry = some key)
    (htext : text key = some entry.2.2) (hgrid : key.position.inGrid) :
    Replaced book text (done ++ [key]) (replaceFormula (b, changes) entry).1 ∧
      Tracks before (replaceFormula (b, changes) entry).1
        (replaceFormula (b, changes) entry).2 := by
  obtain ⟨i, p, t⟩ := entry
  obtain ⟨sheet, hsheet, rfl⟩ := Option.map_eq_some_iff.1 hkey
  have hname : (b.names[i]?) = some sheet.name := by
    rw [h.names_eq, names, List.getElem?_map, hsheet]
    rfl
  rw [names, List.getElem?_map] at hname
  obtain ⟨sheet', hs, hsame⟩ := Option.map_eq_some_iff.1 hname
  have hcell := cellAt_write h.indexed hs p (some t)
  have he := cellEdit_write p (some t)
  rw [hsame] at hcell
  rw [Workbook.replaceFormula, hs]
  dsimp only
  rw [hsame, ← valueAt_of_getElem? h.indexed hs, hsame]
  constructor
  · constructor
    · exact he.indexed h.indexed i
    · exact (he.names_eq b i).trans h.names_eq
    · exact h.graph_eq
    · exact h.listeners_eq
    · exact sound_modifySheet h.sound fun _ _ hsound => hsound.write p (some t)
    · intro k
      rw [hcell, h.cellAt_eq]
      by_cases hk : k = .on sheet.name p
      · rw [if_pos hk, if_pos (by simp [hk]), hk, htext]
      · simp [hk]
  · apply ht.touch_of_valueAt_eq _ hgrid
    · intro name
      rw [HasSheet, he.names_eq, HasSheet]
    · intro k hk
      rw [valueAt, hcell, if_neg hk]
      rfl
    · exact hasSheet_iff.2 ⟨sheet', List.mem_of_getElem? hs, by rw [hsame]; rfl⟩

theorem Replaced.foldl_replaceFormula {entries : List (Nat × Position × String)}
    (h : Replaced book text done b) (ht : Tracks before b changes)
    (hentries : ∀ entry ∈ entries, ∃ key, book.entryKey? entry = some key ∧
      text key = some entry.2.2 ∧ key.position.inGrid) :
    Replaced book text (done ++ entries.filterMap book.entryKey?)
        (entries.foldl Workbook.replaceFormula (b, changes)).1 ∧
      Tracks before (entries.foldl Workbook.replaceFormula (b, changes)).1
        (entries.foldl Workbook.replaceFormula (b, changes)).2 := by
  induction entries generalizing done b changes with
  | nil =>
    rw [List.filterMap_nil, List.append_nil]
    exact ⟨h, ht⟩
  | cons entry entries ih =>
    obtain ⟨key, hkey, htext, hgrid⟩ := hentries entry List.mem_cons_self
    obtain ⟨h', ht'⟩ := h.replaceFormula ht hkey htext hgrid
    have hrest := ih h' ht' fun e he => hentries e (List.mem_cons_of_mem _ he)
    rw [List.filterMap_cons_some hkey, List.append_cons]
    exact hrest

/-- After all texts have been replaced every formula has its references renamed. -/
theorem Replaced.readsAt_eq (hi : book.Indexed) (hsound : ∀ sheet ∈ book.sheets, sheet.Sound)
    (hquote : '\'' ∉ new.toList) (h : Replaced book (book.renamedText old new) done b)
    (hdone : ∀ key, key ∈ done ↔ (book.renamedText old new key).isSome) (key : CellKey) :
    b.readsAt key =
      ((book.entryAt key).targets.map (Target.rename (upper old) (upper new))).filterMap
        (resolve key.sheet) := by
  have htargets : (b.entryAt key).targets =
      (book.entryAt key).targets.map (Target.rename (upper old) (upper new)) := by
    rcases htext : book.renamedText old new key with _ | text
    · have hsame : b.entryAt key = book.entryAt key := by
        rw [entryAt, h.cellAt_eq, if_neg (by simp [hdone, htext]), entryAt]
      rw [hsame, Cell.targets, ← formulaAt_eq]
      rcases he : book.formulaAt key with _ | e
      · rfl
      · have hmentions : e.mentions old = false := by
          simpa [renamedText, he] using htext
        exact (Formula.map_rename_of_not_mentions hmentions (upper new)).symm
    · obtain ⟨e, he, -, rfl⟩ := renamedText_eq_some_iff.1 htext
      have hparsed := (hi.parsed hsound he).renameSheet old hquote
      have hentry : b.entryAt key = .formula (e.renameSheet old new).toText
          (e.renameSheet old new) none := by
        rw [entryAt, h.cellAt_eq, if_pos ((hdone key).2 (by simp [htext])), htext,
          Cell.ofContent_toText hparsed]
        rfl
      rw [hentry, Cell.targets, Cell.targets, ← formulaAt_eq, he]
      exact Formula.targets_renameSheet old new e
  rw [readsAt, htargets]

/-- A renamed reference means the moved cell, also on the renamed sheet. -/
theorem resolve_rename {home : String} (hhome : upper home = home) (hnew : upper new = new)
    {t : Target} (ht : ∀ sheet address, t = .on sheet address → upper sheet = sheet) :
    resolve (if home = old then new else home) (t.rename old new) =
      (resolve home t).map (CellKey.moved old new) := by
  cases t with
  | here address =>
    simp only [Target.rename, resolve, Option.map_map]
    apply Option.map_congr
    intro p _
    rw [Function.comp_apply, on_of_upper hhome, CellKey.moved]
    split
    · rw [on_of_upper hnew]
    · rw [on_of_upper hhome]
  | on sheet address =>
    have hsheet := ht sheet address rfl
    by_cases hold : sheet = old
    · simp only [Target.rename, if_pos hold, resolve, Option.map_map]
      apply Option.map_congr
      intro p _
      rw [on_of_upper hnew, Function.comp_apply, on_of_upper hsheet, CellKey.moved_of_eq hold]
    · simp only [Target.rename, if_neg hold, resolve, Option.map_map]
      apply Option.map_congr
      intro p _
      rw [Function.comp_apply, on_of_upper hsheet, CellKey.moved_of_ne hold]

theorem upper_of_mem_targets {e : Expr} {t : Target} (ht : t ∈ e.targets) :
    ∀ sheet address, t = .on sheet address → upper sheet = sheet := by
  rintro sheet address rfl
  obtain ⟨⟨name, a⟩, -, heq⟩ := List.mem_map.1 ht
  rcases name with _ | name
  · simp [Formula.Reference.target] at heq
  · obtain ⟨rfl, -⟩ := Target.on.inj heq
    exact upper_upper name.name

/-- The cells that a formula reads have moved where its renamed references lead. -/
theorem map_moved_readsAt (h : book.Indexed) (hnew : upper new = new) (key : CellKey) :
    (book.readsAt key).map (CellKey.moved old new) =
      ((book.entryAt key).targets.map (Target.rename old new)).filterMap
        (resolve (key.moved old new).sheet) := by
  rw [readsAt, List.map_filterMap, List.filterMap_map]
  rcases he : book.formulaAt key with _ | e
  · have htargets : (book.entryAt key).targets = [] := by
      rw [Cell.targets, ← formulaAt_eq, he]
    rw [htargets, List.filterMap_nil, List.filterMap_nil]
  · obtain ⟨cell, hc, -⟩ := exists_cellAt he
    have hupper := upper_of_hasSheet (h.hasSheet_of_cellAt hc)
    have htargets : (book.entryAt key).targets = e.targets := by
      rw [Cell.targets, ← formulaAt_eq, he]
    rw [htargets]
    apply List.filterMap_congr
    intro t ht
    rw [Function.comp_apply, CellKey.sheet_moved,
      resolve_rename hupper hnew (upper_of_mem_targets ht)]

end Formulas

/-! ## The edges before the sheet is linked anew -/

section Edges

variable {book b : Workbook} {index : Nat} {sheet : Sheet}
  (hs : book.sheets[index]? = some sheet) (hfree : ¬ book.HasSheet (upper new))
include hs hfree

theorem ne_of_free : upper sheet.name ≠ upper new := fun heq =>
  hfree (heq ▸ hasSheet_of_getElem? hs)

variable (hw : Wired book)
include hw

theorem mem_keys_retitle (key : CellKey) : key ∈ (book.retitle index sheet.name new).graph.keys ↔
    ∃ k ∈ book.graph.keys, k.moved (upper sheet.name) (upper new) = key :=
  (moveNodes_spec hw.graph (ne_of_free hs hfree)).2.2 key

theorem node_retitle {key : CellKey}
    (hkey : ((book.retitle index sheet.name new).cellAt key).isSome) :
    key ∈ (book.retitle index sheet.name new).graph.keys := by
  rw [mem_keys_retitle hs hfree hw]
  rw [cellAt_retitle hs hw.indexed hfree] at hkey
  split at hkey
  · rename_i hnew
    refine ⟨_, hw.node _ hkey, ?_⟩
    rw [CellKey.moved, if_pos rfl, ← hnew]
  · split at hkey
    · simp at hkey
    · rename_i hold
      exact ⟨key, hw.node key hkey, CellKey.moved_of_ne hold⟩

theorem inGrid_of_renamedText {key : CellKey} {text : String}
    (htext : (book.retitle index sheet.name new).renamedText sheet.name new key = some text) :
    key.position.inGrid := by
  obtain ⟨e, he, -⟩ := renamedText_eq_some_iff.1 htext
  obtain ⟨cell, hc, -⟩ := exists_cellAt he
  have hnode := node_retitle hs hfree hw (by rw [hc]; rfl)
  obtain ⟨k, hk, rfl⟩ := (mem_keys_retitle hs hfree hw _).1 hnode
  rw [CellKey.position_moved]
  exact hw.inGrid k hk

/-- The references of a formula on another sheet have moved with the edges. -/
theorem sourcesOf_retitle {key : CellKey} (hnew : key.sheet ≠ upper new) :
    (book.retitle index sheet.name new).graph.sourcesOf key =
      ((((book.retitle index sheet.name new).entryAt key).targets.map
        (Target.rename (upper sheet.name) (upper new))).filterMap (resolve key.sheet) :
          List CellKey) := by
  have hne := ne_of_free hs hfree
  have hcell := cellAt_retitle hs hw.indexed hfree key
  rw [if_neg hnew] at hcell
  change (moveNodes book.graph (upper sheet.name) (upper new)).sourcesOf key = _
  by_cases hold : key.sheet = upper sheet.name
  · rw [if_pos hold] at hcell
    rw [sourcesOf_moveNodes_old hw.graph hne hold, entryAt, hcell]
    rfl
  · rw [if_neg hold] at hcell
    have hentry : (book.retitle index sheet.name new).entryAt key = book.entryAt key := by
      rw [entryAt, hcell, entryAt]
    rw [sourcesOf_moveNodes hw.graph hne hold hnew, hw.sourcesOf_eq key (by simp), hentry,
      Multiset.map_coe, map_moved_readsAt hw.indexed (upper_upper new), CellKey.moved_of_ne hold]

/-- When all formulas have been renamed, only nodes of the renamed sheet have yet to be linked. -/
theorem wiredOff_replaced {done : List CellKey} (hquote : '\'' ∉ new.toList)
    (h : Replaced (book.retitle index sheet.name new)
      ((book.retitle index sheet.name new).renamedText sheet.name new) done b)
    (hdone : ∀ key, key ∈ done ↔
      ((book.retitle index sheet.name new).renamedText sheet.name new key).isSome) :
    WiredOff (fun key => key ∈ b.graph.keys ∧ key.sheet = upper new) b := by
  have hspec := moveNodes_spec hw.graph (ne_of_free hs hfree)
  have hreads := h.readsAt_eq (indexed_retitle hs hw.indexed hfree) (sound_retitle hs hw.sound)
    hquote hdone
  constructor
  · exact h.indexed
  · exact h.graph_eq ▸ hspec.1
  · exact h.sound
  · intro key hkey
    rw [hreads]
    rw [h.graph_eq] at hkey ⊢
    by_cases hnew : key.sheet = upper new
    · have hnode : key ∉ (book.retitle index sheet.name new).graph.keys :=
        fun hmem => hkey ⟨hmem, hnew⟩
      have hcell : (book.retitle index sheet.name new).cellAt key = none := by
        by_contra hcell
        exact hnode (node_retitle hs hfree hw (Option.isSome_iff_ne_none.2 hcell))
      rw [entryAt, hcell]
      exact DependencyGraph.sourcesOf_eq_zero hspec.1 hnode
    · exact sourcesOf_retitle hs hfree hw hnew
  · intro key hkey
    rw [h.graph_eq, mem_keys_retitle hs hfree hw] at hkey
    obtain ⟨k, hk, rfl⟩ := hkey
    rw [CellKey.position_moved]
    exact hw.inGrid k hk
  · intro key hkey
    rw [h.graph_eq]
    apply node_retitle hs hfree hw
    rw [h.cellAt_eq] at hkey
    split at hkey
    · rename_i hmem
      obtain ⟨text, htext⟩ := Option.isSome_iff_exists.1 ((hdone key).1 hmem)
      obtain ⟨e, he, -⟩ := renamedText_eq_some_iff.1 htext
      obtain ⟨cell, hc, -⟩ := exists_cellAt he
      rw [hc]
      rfl
    · exact hkey

end Edges

/-! ## Linking anew -/

/-- Linking all nodes that have yet to be linked makes every edge right. It changes no value, and
    the new nodes are cells that formulas read. -/
theorem foldl_link_spec {b : Workbook} {ks : List CellKey} (h : WiredOff (· ∈ ks) b)
    (hks : ∀ k ∈ ks, k ∈ b.graph.keys) :
    Wired (ks.foldl (fun book key => (book.ensureAt key).link key) b) ∧
      Agrees b (ks.foldl (fun book key => (book.ensureAt key).link key) b) ∧
      (∀ k, (ks.foldl (fun book key => (book.ensureAt key).link key) b).valueAt k = b.valueAt k) ∧
      ∀ k ∈ (ks.foldl (fun book key => (book.ensureAt key).link key) b).graph.keys,
        k ∈ b.graph.keys ∨ ∃ key, k ∈ b.readsAt key := by
  induction ks generalizing b with
  | nil => exact ⟨h.mono fun _ => List.not_mem_nil, .refl b, fun _ => rfl, fun _ => Or.inl⟩
  | cons key ks ih =>
    obtain ⟨hagrees, hvalue, hgraph, hstored⟩ := ensureAt_spec h.indexed key
    have hkey := hks key List.mem_cons_self
    have hw := h.of_agrees hagrees hgraph fun k hk => by
      rcases hstored k hk with rfl | hk
      · exact hkey
      · exact h.node k hk
    have hkey' : key ∈ (b.ensureAt key).graph.keys := hgraph ▸ hkey
    have hlinked := linked_link hw hkey'
    have hrest := ih (b := (b.ensureAt key).link key)
      ((hw.link hkey').mono fun k hk => (List.mem_cons.1 hk.1).resolve_left hk.2)
      fun k hk => hlinked.keys_subset k (hgraph ▸ hks k (List.mem_cons_of_mem _ hk))
    obtain ⟨hwired, hagrees', hvalue', hnodes⟩ := hrest
    refine ⟨hwired, (hagrees.trans hlinked.agrees).trans hagrees', fun k =>
      (hvalue' k).trans ((hlinked.valueAt_eq k).trans (hvalue k)), fun k hk => ?_⟩
    have hstep := hagrees.trans hlinked.agrees
    rcases hnodes k hk with hk | ⟨reader, hk⟩
    · rcases mem_keys_link hw.graph hk with hk | hk | rfl
      · exact Or.inl (hgraph ▸ hk)
      · exact Or.inr ⟨key, hagrees.readsAt_eq key ▸ hk⟩
      · exact Or.inl hkey
    · exact Or.inr ⟨reader, hstep.readsAt_eq reader ▸ hk⟩

/-! ## The whole edit -/

/-- The values before a sheet is renamed, under the new name. -/
def valuesUnder (book : Workbook) (old new : String) (key : CellKey) : Option CellValue :=
  if key.sheet = upper new then book.valueAt (.on old key.position) else book.valueAt key

theorem quote_not_mem {name : String} (h : nameFault? name = none) : '\'' ∉ name.toList := by
  unfold nameFault? at h
  intro hmem
  have hany : (name.toList.any fun c => c == '\'' || c == '"') = true :=
    List.any_eq_true.2 ⟨'\'', hmem, rfl⟩
  simp only [hany, if_true] at h
  split at h
  · simp at h
  · split at h <;> simp at h

theorem tracks_retitle {book : Workbook} (hi : book.Indexed) {index : Nat} {sheet : Sheet}
    (hs : book.sheets[index]? = some sheet) (hfree : ¬ book.HasSheet (upper new)) :
    Tracks (book.valuesUnder sheet.name new) (book.retitle index sheet.name new) .none := by
  apply Tracks.none
  intro key hkey
  have hold := (hasSheet_retitle hs hi hfree key.sheet).1 hkey
  rw [valueAt, cellAt_retitle hs hi hfree, valuesUnder]
  by_cases hnew : key.sheet = upper new
  · rw [if_pos hnew, if_pos hnew]
    rfl
  · rw [if_neg hnew, if_neg hnew, if_neg (hold.resolve_left hnew).2]
    rfl

/-- The workbook with a sheet renamed in all formulas, and the changes so far. -/
def rewrite (book : Workbook) (index : Nat) (old new : String) : Workbook × Changes :=
  ((book.retitle index old new).renamedFormulas old new).foldl replaceFormula
    (book.retitle index old new, .none)

/-- The nodes of a sheet, which are linked anew. -/
def nodesOn (book : Workbook) (name : String) : List CellKey :=
  book.graph.keys.filter fun key => key.sheet == upper name && key.position.inGrid

theorem renameSheet_eq {book : Workbook} {index : Nat} {sheet : Sheet}
    (hindex : book.locate old = .ok index) (hs : book.sheets[index]? = some sheet)
    (hcheck : book.checkName new = .ok ()) :
    let b := (book.rewrite index sheet.name new).1
    let moved := b.nodesOn new
    let settled := (moved.foldl (fun book key => (book.ensureAt key).link key) b).settle
      (book.rewrite index sheet.name new).2 moved
    book.renameSheet old new = .ok ⟨(), settled.1, settled.2⟩ := by
  simp only [renameSheet, hindex, hcheck, hs, Option.elim_some, bind, Except.bind]
  rfl

section Rewrite

variable {book : Workbook} (h : Valid book) {index : Nat} {sheet : Sheet}
  (hs : book.sheets[index]? = some sheet) (hfree : ¬ book.HasSheet (upper new))
include h hs hfree

/-- Every formula that mentions the sheet gets its new text. -/
theorem replaced_rewrite :
    ∃ done, Replaced (book.retitle index sheet.name new)
        ((book.retitle index sheet.name new).renamedText sheet.name new) done
        (book.rewrite index sheet.name new).1 ∧
      (∀ key, key ∈ done ↔
        ((book.retitle index sheet.name new).renamedText sheet.name new key).isSome) ∧
      Tracks (book.valuesUnder sheet.name new) (book.rewrite index sheet.name new).1
        (book.rewrite index sheet.name new).2 := by
  have hw := h.wired
  have hi := indexed_retitle hs hw.indexed hfree
  let text := (book.retitle index sheet.name new).renamedText sheet.name new
  have hstart : Replaced (book.retitle index sheet.name new) text []
      (book.retitle index sheet.name new) :=
    ⟨hi, rfl, rfl, rfl, sound_retitle hs hw.sound, fun key => by simp⟩
  obtain ⟨hreplaced, htracks⟩ := hstart.foldl_replaceFormula (tracks_retitle hw.indexed hs hfree)
    fun entry hentry => by
      obtain ⟨key, hkey, htext⟩ := entryKey?_of_mem hi hentry
      exact ⟨key, hkey, htext, inGrid_of_renamedText hs hfree hw htext⟩
  rw [List.nil_append] at hreplaced
  exact ⟨_, hreplaced, fun key => mem_entryKeys_iff hi, htracks⟩

/-- Only the nodes of the renamed sheet have yet to be linked. -/
theorem wiredOff_rewrite (hname : nameFault? new = none) :
    let b := (book.rewrite index sheet.name new).1
    WiredOff (· ∈ b.nodesOn new) b ∧ ∀ key ∈ b.nodesOn new, key ∈ b.graph.keys := by
  obtain ⟨done, hreplaced, hdone, -⟩ := replaced_rewrite h hs hfree
  have hoff := wiredOff_replaced hs hfree h.wired (quote_not_mem hname) hreplaced hdone
  intro b
  have hnodes (key : CellKey) :
      key ∈ b.nodesOn new ↔ key ∈ b.graph.keys ∧ key.sheet = upper new := by
    rw [nodesOn, List.mem_filter, Bool.and_eq_true, beq_iff_eq]
    exact ⟨fun hand => ⟨hand.1, hand.2.1⟩, fun hand => ⟨hand.1, hand.2, hoff.inGrid key hand.1⟩⟩
  exact ⟨hoff.mono fun key => (hnodes key).2, fun key hkey => ((hnodes key).1 hkey).1⟩

theorem prepared_rename (hname : nameFault? new = none) :
    let b := (book.rewrite index sheet.name new).1
    Prepared (book.valuesUnder sheet.name new) book
      ((b.nodesOn new).foldl (fun book key => (book.ensureAt key).link key) b)
      (book.rewrite index sheet.name new).2 := by
  intro b
  obtain ⟨done, hreplaced, -, htracks⟩ := replaced_rewrite h hs hfree
  obtain ⟨hlinks, hnodes⟩ := wiredOff_rewrite h hs hfree hname
  obtain ⟨hwired, hagrees, hvalue, -⟩ := foldl_link_spec hlinks hnodes
  refine ⟨hwired, htracks.of_valueAt_eq (fun _ => hagrees.hasSheet_iff) fun k _ => hvalue k,
    hagrees.listeners_eq.trans hreplaced.listeners_eq, fun name hmem => ?_⟩
  have hnames : b.names = (book.retitle index sheet.name new).names := hreplaced.names_eq
  rw [hagrees.names_eq, hnames] at hmem
  obtain ⟨s, hs', rfl⟩ := List.mem_map.1 hmem
  rcases mem_retitle hs hs' with rfl | hs'
  · exact hname
  · exact h.allowed _ (List.mem_map_of_mem hs')

end Rewrite

/-- A renamed sheet has the values that it had under its old name before, or listeners are told. -/
theorem edited_renameSheet {book : Workbook} (h : Valid book) {o : Outcome Unit}
    (ho : book.renameSheet old new = .ok o) :
    Edited (book.valuesUnder old new) book o.book o.announcements := by
  obtain ⟨index, hindex, hrest⟩ := bind_eq_ok_iff.1 ho
  obtain ⟨_, hcheck, -⟩ := bind_eq_ok_iff.1 hrest
  obtain ⟨sheet, hs, hold⟩ := (locate_eq_ok_iff h.wired.indexed).1 hindex
  obtain ⟨hname, hfree⟩ := (checkName_eq_ok_iff h.wired.indexed).1 hcheck
  rw [renameSheet_eq hindex hs hcheck] at ho
  obtain rfl := Except.ok.inj ho
  have hbefore : book.valuesUnder old new = book.valuesUnder sheet.name new := by
    funext key
    rw [valuesUnder, valuesUnder, CellKey.on, CellKey.on, hold]
  rw [hbefore]
  exact (prepared_rename h hs hfree hname).settle _

end Workbook

end Spreadsheet
