import Spreadsheet.Proofs.Graph.Edges
import Spreadsheet.Proofs.Workbook.References

/-!
# The graph mirrors the formulas

Results:
* `Agrees`: two workbooks hold the same entries. Making places for cells and giving values to
  formulas keeps every entry.
* `WiredOff off`: the edges into each node, except those in `off`, are the references of the formula
  there; stored cells are nodes, and nodes lie in the grid.
* `linked_link`, `WiredOff.link`: linking a cell makes its edges right and touches no other.
-/

namespace Spreadsheet.Workbook

open Formula (Expr)

/-! ## The same entries -/

/-- The second workbook holds what was entered in the first. It may store more blank cells and have
    other values for formulas. -/
structure Agrees (book book' : Workbook) : Prop where
  registry_eq : book'.registry = book.registry
  names_eq : book'.names = book.names
  listeners_eq : book'.listeners = book.listeners
  entryAt_eq : ∀ key, book'.entryAt key = book.entryAt key
  stored : ∀ key, (book.cellAt key).isSome → (book'.cellAt key).isSome
  sound : (∀ sheet ∈ book.sheets, sheet.Sound) → ∀ sheet ∈ book'.sheets, sheet.Sound

variable {book book' : Workbook}

namespace Agrees

theorem refl (book : Workbook) : Agrees book book :=
  ⟨rfl, rfl, rfl, fun _ => rfl, fun _ h => h, id⟩

theorem trans {book'' : Workbook} (h : Agrees book book') (h' : Agrees book' book'') :
    Agrees book book'' :=
  ⟨h'.registry_eq.trans h.registry_eq, h'.names_eq.trans h.names_eq,
    h'.listeners_eq.trans h.listeners_eq, fun key => (h'.entryAt_eq key).trans (h.entryAt_eq key),
    fun key hk => h'.stored key (h.stored key hk), fun hs => h'.sound (h.sound hs)⟩

section

variable (h : Agrees book book')
include h

theorem hasSheet_iff {name : String} : book'.HasSheet name ↔ book.HasSheet name := by
  rw [HasSheet, HasSheet, h.names_eq]

theorem indexed (hi : book.Indexed) : book'.Indexed := by
  rw [indexed_iff] at hi ⊢
  rw [h.registry_eq, h.names_eq]
  exact hi

theorem formulaAt_eq (key : CellKey) : book'.formulaAt key = book.formulaAt key := by
  rw [Workbook.formulaAt_eq, Workbook.formulaAt_eq, h.entryAt_eq]

theorem readsAt_eq (key : CellKey) : book'.readsAt key = book.readsAt key := by
  rw [readsAt, readsAt, h.entryAt_eq]

/-- The graph has no part in what was entered. -/
theorem withGraph (g : DependencyGraph) : Agrees book { book' with graph := g } :=
  ⟨h.registry_eq, h.names_eq, h.listeners_eq, h.entryAt_eq, h.stored, h.sound⟩

end

end Agrees

theorem agrees_ensure (h : book.Indexed) {name : String} {i : Nat}
    (hi : book.registry[name]? = some i) (p : Position) :
    Agrees book (book.modifySheet i (·.ensure p)) := by
  have he := cellEdit_ensure p
  refine ⟨rfl, he.names_eq book i, rfl, ?_, ?_,
    fun hs => sound_modifySheet hs fun _ _ hsound => hsound.ensure p⟩
  · intro key
    rw [entryAt, he.cellAt h hi, entryAt]
    split
    · rename_i hkey
      rw [hkey]
      rfl
    · rfl
  · intro key hkey
    rw [he.cellAt h hi]
    split
    · rfl
    · exact hkey

/-- A formula gets another value, and nothing that was entered changes. -/
theorem agrees_evaluated (h : book.Indexed) {key : CellKey} {i : Nat}
    (hi : book.registry[key.sheet]? = some i) {e : Expr} (he : book.formulaAt key = some e)
    (value : CellValue) : Agrees book (book.modifySheet i (·.evaluated key.position value)) := by
  obtain ⟨cell, hc, hcell⟩ := exists_cellAt he
  have hcellAt := (cellEdit_evaluated key.position value).cellAt h hi
  refine ⟨rfl, (cellEdit_evaluated key.position value).names_eq book i, rfl, fun k => ?_,
    fun k hk => ?_, fun hs => sound_modifySheet hs fun sheet hsheet hsound => ?_⟩
  · rw [entryAt, hcellAt, entryAt]
    split
    · rename_i hk
      rw [hk, hc, Option.map_some, Option.getD_some, Option.getD_some]
      exact Cell.unevaluated_evaluated hcell value
    · rfl
  · rw [hcellAt, hc]
    split
    · rfl
    · exact hk
  · apply hsound.evaluated (e := e) _ value
    obtain ⟨other, hother, hname⟩ := (h _ i).1 hi
    obtain rfl : other = sheet := Option.some.inj (hother.symm.trans hsheet)
    rw [← h.cellAt_eq (List.mem_of_getElem? hsheet) hname, hc, Option.bind_some, hcell]

/-- Making a place for a cell changes no value. -/
theorem valueAt_ensure (h : book.Indexed) {name : String} {i : Nat}
    (hi : book.registry[name]? = some i) (p : Position) (key : CellKey) :
    (book.modifySheet i (·.ensure p)).valueAt key = book.valueAt key := by
  rw [valueAt, (cellEdit_ensure p).cellAt h hi, valueAt]
  split
  · rename_i hkey
    rw [hkey]
    rcases book.cellAt ⟨name, p⟩ with _ | cell <;> rfl
  · rfl

/-- The new places of a workbook with a place for the cell `p` of a sheet. -/
theorem isSome_cellAt_ensure (h : book.Indexed) {name : String} {i : Nat}
    (hi : book.registry[name]? = some i) (p : Position) (key : CellKey) :
    ((book.modifySheet i (·.ensure p)).cellAt key).isSome ↔
      key = ⟨name, p⟩ ∨ (book.cellAt key).isSome := by
  rw [(cellEdit_ensure p).cellAt h hi]
  split
  · simp [*]
  · simp [*]

/-! ## Wired workbooks -/

theorem Indexed.canonical (h : book.Indexed) (hsound : ∀ sheet ∈ book.sheets, sheet.Sound)
    {key : CellKey} {cell : Cell} (hc : book.cellAt key = some cell) : cell.Canonical := by
  obtain ⟨sheet, hmem, -, hcell⟩ := h.cellAt_eq_some_iff.1 hc
  exact (hsound sheet hmem).canonical _ _ hcell

/-- A formula was read from its text. -/
theorem Indexed.parsed (h : book.Indexed) (hsound : ∀ sheet ∈ book.sheets, sheet.Sound)
    {key : CellKey} {e : Expr} (he : book.formulaAt key = some e) : e.Parsed := by
  obtain ⟨cell, hc, hcell⟩ := exists_cellAt he
  exact (h.canonical hsound hc).parsed hcell

/-- Edges mirror formulas, except into the nodes in `off`. -/
structure WiredOff (off : CellKey → Prop) (book : Workbook) : Prop where
  indexed : book.Indexed
  graph : book.graph.WellFormed
  sound : ∀ sheet ∈ book.sheets, sheet.Sound
  sourcesOf_eq : ∀ key, ¬ off key → book.graph.sourcesOf key = book.readsAt key
  inGrid : ∀ key ∈ book.graph.keys, key.position.inGrid
  node : ∀ key, (book.cellAt key).isSome → key ∈ book.graph.keys

/-- Edges mirror formulas. -/
abbrev Wired (book : Workbook) : Prop :=
  WiredOff (fun _ => False) book

theorem wired_empty : Wired empty := by
  constructor
  · intro name i
    simp [empty]
  · exact DependencyGraph.wellFormed_empty
  · simp [empty]
  · intro key _
    have hnone : empty.formulaAt key = none := by simp [formulaAt, cellAt, sheetOf?, empty]
    rw [readsAt_eq_nil hnone]
    rfl
  · intro key hkey
    simp [empty, EmptyCollection.emptyCollection, DependencyGraph.empty, DependencyGraph.keys]
      at hkey
  · intro key hkey
    simp [empty, cellAt, sheetOf?] at hkey

namespace WiredOff

variable {off : CellKey → Prop}

theorem mono {off' : CellKey → Prop} (h : WiredOff off book) (hoff : ∀ key, off key → off' key) :
    WiredOff off' book :=
  { h with sourcesOf_eq := fun key hkey => h.sourcesOf_eq key (mt (hoff key) hkey) }

/-- Entries decide. -/
theorem of_agrees (h : WiredOff off book) (ha : Agrees book book')
    (hgraph : book'.graph = book.graph)
    (hnode : ∀ key, (book'.cellAt key).isSome → key ∈ book.graph.keys) : WiredOff off book' where
  indexed := ha.indexed h.indexed
  graph := hgraph ▸ h.graph
  sound := ha.sound h.sound
  sourcesOf_eq key hkey := by rw [hgraph, ha.readsAt_eq, h.sourcesOf_eq key hkey]
  inGrid := hgraph ▸ h.inGrid
  node := hgraph ▸ hnode

/-- A formula reads a cell iff an edge leads from that cell to it. -/
theorem readBy_iff (h : WiredOff off book) {u v : CellKey} (hv : ¬ off v) :
    v ∈ book.graph.readersOf u ↔ u ∈ book.readsAt v := by
  rw [← List.count_pos_iff, ← DependencyGraph.count_sourcesOf h.graph, Multiset.count_pos,
    h.sourcesOf_eq v hv, Multiset.mem_coe]

/-- Stored cells are in the grid. -/
theorem inGrid_of_cellAt (h : WiredOff off book) {key : CellKey} {cell : Cell}
    (hc : book.cellAt key = some cell) : key.position.inGrid :=
  h.inGrid key (h.node key (by rw [hc]; rfl))

theorem canonical (h : WiredOff off book) {key : CellKey} {cell : Cell}
    (hc : book.cellAt key = some cell) : cell.Canonical :=
  h.indexed.canonical h.sound hc

theorem parsed (h : WiredOff off book) {key : CellKey} {e : Expr}
    (he : book.formulaAt key = some e) : e.Parsed :=
  h.indexed.parsed h.sound he

/-- The references of a formula are linked as it reads them. -/
theorem readsAt_eq_cells (h : WiredOff off book) {key : CellKey} {e : Expr}
    (he : book.formulaAt key = some e) :
    book.readsAt key = e.references.filterMap (·.cell? key.sheet) := by
  obtain ⟨cell, hc, -⟩ := exists_cellAt he
  have hupper := upper_of_hasSheet (h.indexed.hasSheet_of_cellAt hc)
  rw [readsAt_of_formulaAt he, Expr.targets, List.filterMap_map]
  apply List.filterMap_congr
  intro r hr
  rw [Function.comp_apply, resolve_target hupper ((h.parsed he).isShape hr)]

theorem mem_readsAt_iff (h : WiredOff off book) {key source : CellKey} {e : Expr}
    (he : book.formulaAt key = some e) :
    source ∈ book.readsAt key ↔ ∃ r ∈ e.references, r.cell? key.sheet = some source := by
  rw [h.readsAt_eq_cells he, List.mem_filterMap]

end WiredOff

theorem inGrid_of_mem_readsAt {key source : CellKey} (h : source ∈ book.readsAt key) :
    source.position.inGrid := by
  obtain ⟨t, -, ht⟩ := List.mem_filterMap.1 h
  exact inGrid_of_resolve ht

/-! ## Nodes -/

theorem graph_ensureAt (book : Workbook) (key : CellKey) :
    (book.ensureAt key).graph = book.graph := by
  unfold ensureAt
  split <;> rfl

theorem mem_keys_foldl_linkFrom {key : CellKey} {sources : List CellKey}
    (h : book.graph.WellFormed) {k : CellKey}
    (hk : k ∈ (sources.foldl (linkFrom key) book).graph.keys) :
    k ∈ book.graph.keys ∨ k ∈ sources ∨ k = key := by
  induction sources generalizing book with
  | nil => exact Or.inl hk
  | cons source sources ih =>
    have hgraph : (linkFrom key book source).graph = book.graph.connect source key := by
      rw [linkFrom, graph_ensureAt]
    have hrest := ih (hgraph ▸ h.connect source key) hk
    rw [hgraph, DependencyGraph.keys_connect h, DependencyGraph.mem_insertKey,
      DependencyGraph.mem_insertKey] at hrest
    rw [List.mem_cons]
    tauto

/-- Linking a node makes nodes only of the cells that its formula reads. -/
theorem mem_keys_link (h : book.graph.WellFormed) {key k : CellKey}
    (hk : k ∈ (book.link key).graph.keys) :
    k ∈ book.graph.keys ∨ k ∈ book.readsAt key ∨ k = key := by
  rw [link, ← readsAt_eq] at hk
  have hnodes := mem_keys_foldl_linkFrom (h.disconnect key) hk
  rwa [DependencyGraph.keys_disconnect] at hnodes

/-! ## Linking a cell -/

/-- What linking makes of a workbook when the edges from `sources` into `key` have been added. -/
structure Linked (book : Workbook) (key : CellKey) (sources : List CellKey) (book' : Workbook) :
    Prop where
  agrees : Agrees book book'
  valueAt_eq : ∀ k, book'.valueAt k = book.valueAt k
  graph : book'.graph.WellFormed
  edges_eq : book'.graph.edges =
    book.graph.edges.filter (·.2 ≠ key) + (sources.map (·, key) : List (CellKey × CellKey))
  keys_subset : ∀ k ∈ book.graph.keys, k ∈ book'.graph.keys
  inGrid : ∀ k ∈ book'.graph.keys, k.position.inGrid
  node : ∀ k, (book'.cellAt k).isSome → k ∈ book'.graph.keys

section Link

variable {off : CellKey → Prop} {key : CellKey}

theorem linked_disconnect (h : WiredOff off book) (key : CellKey) :
    Linked book key [] { book with graph := book.graph.disconnect key } where
  agrees := (Agrees.refl book).withGraph _
  valueAt_eq _ := rfl
  graph := h.graph.disconnect key
  edges_eq := by
    rw [DependencyGraph.edges_disconnect h.graph, List.map_nil]
    exact (add_zero _).symm
  keys_subset k hk := by
    rw [DependencyGraph.keys_disconnect]
    exact hk
  inGrid k hk := by
    rw [DependencyGraph.keys_disconnect] at hk
    exact h.inGrid k hk
  node k hk := by
    rw [DependencyGraph.keys_disconnect]
    exact h.node k hk

/-- A place for a cell that becomes a node. -/
theorem ensureAt_spec (h : book.Indexed) (key : CellKey) :
    Agrees book (book.ensureAt key) ∧ (∀ k, (book.ensureAt key).valueAt k = book.valueAt k) ∧
      (book.ensureAt key).graph = book.graph ∧
      ∀ k, ((book.ensureAt key).cellAt k).isSome → k = key ∨ (book.cellAt k).isSome := by
  unfold ensureAt
  split
  · rename_i i hi
    exact ⟨agrees_ensure h hi _, valueAt_ensure h hi _, rfl,
      fun k => (isSome_cellAt_ensure h hi _ k).1⟩
  · exact ⟨.refl book, fun _ => rfl, rfl, fun _ => Or.inr⟩

theorem Linked.linkFrom {sources : List CellKey} (hb : book.Indexed)
    (h : Linked book key sources book') {source : CellKey} (hsource : source.position.inGrid)
    (hkey : key.position.inGrid) :
    Linked book key (sources ++ [source]) (linkFrom key book' source) := by
  obtain ⟨hagrees, hvalues, hgraph, hstored⟩ := ensureAt_spec (h.agrees.indexed hb) source
  have hkeys (k : CellKey) : k ∈ (book'.graph.connect source key).keys ↔
      k ∈ book'.graph.keys ∨ k = source ∨ k = key := by
    rw [DependencyGraph.keys_connect h.graph, DependencyGraph.mem_insertKey,
      DependencyGraph.mem_insertKey, or_assoc]
  rw [Workbook.linkFrom, hgraph]
  generalize book'.ensureAt source = made at hagrees hvalues hgraph hstored ⊢
  constructor
  · exact (h.agrees.trans hagrees).withGraph _
  · exact fun k => (hvalues k).trans (h.valueAt_eq k)
  · exact h.graph.connect source key
  · rw [DependencyGraph.edges_connect h.graph, h.edges_eq, List.map_append, add_assoc,
      ← Multiset.coe_add]
    rfl
  · intro k hk
    rw [hkeys]
    exact Or.inl (h.keys_subset k hk)
  · intro k hk
    rw [hkeys] at hk
    rcases hk with hk | rfl | rfl
    · exact h.inGrid k hk
    · exact hsource
    · exact hkey
  · intro k hk
    rw [hkeys]
    rcases hstored k hk with rfl | hk
    · exact Or.inr (Or.inl rfl)
    · exact Or.inl (h.node k hk)

theorem Linked.foldl_linkFrom {sources : List CellKey} (hb : book.Indexed)
    (h : Linked book key sources book') (hkey : key.position.inGrid) {more : List CellKey}
    (hmore : ∀ source ∈ more, source.position.inGrid) :
    Linked book key (sources ++ more) (more.foldl (Workbook.linkFrom key) book') := by
  induction more generalizing sources book' with
  | nil => rwa [List.append_nil]
  | cons source more ih =>
    have hstep := h.linkFrom hb (hmore source List.mem_cons_self) hkey
    have hrest := ih hstep fun s hs => hmore s (List.mem_cons_of_mem _ hs)
    rwa [List.append_assoc] at hrest

/-- Linking a node gives it the edges of its formula. -/
theorem linked_link (h : WiredOff off book) (hkey : key ∈ book.graph.keys) :
    Linked book key (book.readsAt key) (book.link key) := by
  have hsources : ∀ source ∈ book.readsAt key, source.position.inGrid :=
    fun _ hs => inGrid_of_mem_readsAt hs
  have hlink := (linked_disconnect h key).foldl_linkFrom h.indexed (h.inGrid key hkey) hsources
  rw [List.nil_append] at hlink
  rw [link, ← readsAt_eq]
  exact hlink

theorem Linked.sourcesOf_self {sources : List CellKey} (h : Linked book key sources book') :
    book'.graph.sourcesOf key = sources := by
  rw [DependencyGraph.sourcesOf, h.edges_eq, Multiset.filter_add, Multiset.filter_filter,
    Multiset.map_add]
  have hold : book.graph.edges.filter (fun e => e.2 = key ∧ e.2 ≠ key) = 0 := by
    rw [Multiset.filter_eq_nil]
    rintro e - ⟨heq, hne⟩
    exact hne heq
  have hnew : (Multiset.ofList (sources.map (·, key))).filter (·.2 = key) =
      Multiset.ofList (sources.map (·, key)) := by
    rw [Multiset.filter_eq_self]
    intro e he
    obtain ⟨s, -, rfl⟩ := List.mem_map.1 he
    rfl
  have hfst : (Prod.fst ∘ fun source : CellKey => (source, key)) = id := rfl
  rw [hold, hnew, Multiset.map_zero, zero_add, Multiset.map_coe, List.map_map, hfst, List.map_id]

theorem Linked.sourcesOf_of_ne {sources : List CellKey} (h : Linked book key sources book')
    {k : CellKey} (hk : k ≠ key) : book'.graph.sourcesOf k = book.graph.sourcesOf k := by
  rw [DependencyGraph.sourcesOf, h.edges_eq, Multiset.filter_add, Multiset.filter_filter,
    Multiset.map_add, DependencyGraph.sourcesOf]
  have hold : book.graph.edges.filter (fun e => e.2 = k ∧ e.2 ≠ key) =
      book.graph.edges.filter (·.2 = k) := by
    apply Multiset.filter_congr
    intro e _
    constructor
    · exact And.left
    · rintro rfl
      exact ⟨rfl, hk⟩
  have hnew : (Multiset.ofList (sources.map (·, key))).filter (·.2 = k) = 0 := by
    rw [Multiset.filter_eq_nil]
    intro e he heq
    obtain ⟨s, -, rfl⟩ := List.mem_map.1 he
    exact hk heq.symm
  rw [hold, hnew, Multiset.map_zero, add_zero]

/-- Linking a node makes its edges right. -/
theorem WiredOff.link (h : WiredOff off book) (hkey : key ∈ book.graph.keys) :
    WiredOff (fun k => off k ∧ k ≠ key) (book.link key) := by
  have hlink := linked_link h hkey
  constructor
  · exact hlink.agrees.indexed h.indexed
  · exact hlink.graph
  · exact hlink.agrees.sound h.sound
  · intro k hk
    rw [hlink.agrees.readsAt_eq]
    by_cases hkk : k = key
    · rw [hkk, hlink.sourcesOf_self]
    · rw [hlink.sourcesOf_of_ne hkk]
      exact h.sourcesOf_eq k fun hoff => hk ⟨hoff, hkk⟩
  · exact hlink.inGrid
  · exact hlink.node

end Link

end Spreadsheet.Workbook
