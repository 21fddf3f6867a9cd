import Spreadsheet.Proofs.Formula.Substitution
import Spreadsheet.Proofs.Workbook.Formulas
import Spreadsheet.Proofs.Workbook.Mirror

/-!
# Renaming a sheet keeps what formulas mean

The cells of the renamed sheet are found under the new name, and every formula means the cells that
it meant before. If no formula refers to the new name before, which would find the sheet from then
on, the workbook under moved keys mirrors the one before, so no value changes.

Results:
* `Renamed`: what a rename makes of sheets, entries and graph. `renamed_renameSheet` says that every
  successful call does just that.
* `Renamed.mirrored`, `Renamed.cellAt_eq`: every cell is what it was, with its formula renamed.
* `rename_keeps_meaning`: cells, extents, edges and order of a reachable workbook after a rename.
-/

namespace Spreadsheet

open Formula (Expr Reference)

variable {old new : String}

/-! ## Cells -/

/-- The cell with the sheet renamed in its formula, if the formula mentions it. -/
def Cell.renameSheet (old new : String) : Cell → Cell
  | formula content e value =>
    if e.mentions old then formula (e.renameSheet old new).toText (e.renameSheet old new) value
    else formula content e value
  | c => c

namespace Cell

theorem renameSheet_of_not_mentions {c : Cell}
    (h : ∀ e, c.expr? = some e → e.mentions old = false) : c.renameSheet old new = c := by
  cases c with
  | formula content e value =>
    have hmentions := h e rfl
    simp [renameSheet, hmentions]
  | _ => rfl

theorem unevaluated_renameSheet (c : Cell) :
    (c.renameSheet old new).unevaluated = c.unevaluated.renameSheet old new := by
  cases c with
  | formula content e value => by_cases h : e.mentions old <;> simp [renameSheet, unevaluated, h]
  | _ => rfl

theorem value?_renameSheet (c : Cell) : (c.renameSheet old new).value? = c.value? := by
  cases c with
  | formula content e value => by_cases h : e.mentions old <;> simp [renameSheet, value?, h]
  | _ => rfl

theorem hasContent_renameSheet (c : Cell) :
    (c.renameSheet old new).hasContent = c.hasContent := by
  cases c with
  | formula content e value =>
    by_cases h : e.mentions old <;> simp [renameSheet, hasContent, content?, h]
  | _ => rfl

theorem expr?_renameSheet (c : Cell) : (c.renameSheet old new).expr? =
    c.expr?.map fun e => if e.mentions old then e.renameSheet old new else e := by
  cases c with
  | formula content e value => by_cases h : e.mentions old <;> simp [renameSheet, expr?, h]
  | _ => rfl

theorem renameSheet_congr {old' : String} (h : upper old = upper old') (c : Cell) :
    c.renameSheet old new = c.renameSheet old' new := by
  cases c with
  | formula content e value =>
    rw [renameSheet, renameSheet, Formula.mentions_congr h, Formula.renameSheet_congr h]
  | _ => rfl

/-- A cell is known by its entry and its value. -/
theorem ext_value {c d : Cell} (hentry : c.unevaluated = d.unevaluated)
    (hvalue : c.value? = d.value?) : c = d := by
  cases c <;> cases d <;> simp_all [unevaluated, value?]

end Cell

/-! ## References -/

/-- A renamed reference means the moved cell. -/
theorem cell?_renameSheet (home : String) (r : Reference) :
    (r.renameSheet old new).cell? (if home = upper old then upper new else home) =
      (r.cell? home).map (CellKey.moved (upper old) (upper new)) := by
  unfold Reference.cell? Reference.renameSheet
  rcases Position.ofAddress r.address with e | p
  · rfl
  · by_cases hp : p.inGrid
    · rcases r.sheet with _ | sheet
      · by_cases hhome : home = upper old
        · simp [hp, hhome, CellKey.moved]
        · simp [hp, hhome, CellKey.moved]
      · by_cases hsheet : upper sheet.name = upper old
        · simp [hp, hsheet, CellKey.moved, CellKey.on, Formula.SheetName.rename,
            Formula.SheetName.isNamed, Formula.sameSheet]
        · simp [hp, hsheet, CellKey.moved, CellKey.on, Formula.SheetName.rename,
            Formula.SheetName.isNamed, Formula.sameSheet]
    · simp [hp]

theorem cell?_renameSheet_of_not_mentions {e : Expr} (he : e.mentions old = false) {r : Reference}
    (hr : r ∈ e.references) (home : String) :
    (r.renameSheet old new).cell? home = r.cell? home := by
  rcases hsheet : r.sheet with _ | sheet
  · simp [Reference.renameSheet, Reference.cell?, hsheet]
  · have hne := Formula.upper_ne_of_not_mentions he hr hsheet
    simp [Reference.renameSheet, Reference.cell?, hsheet, Formula.SheetName.rename,
      Formula.SheetName.isNamed, Formula.sameSheet, hne, CellKey.on]

namespace Workbook

variable {book book' : Workbook}

/-! ## What a rename does -/

/-- The sheet `old` is called `new`: its cells have moved with their nodes and edges, and all
    formulas refer to it under its new name. -/
structure Renamed (old new : String) (book book' : Workbook) : Prop where
  titled : book.HasSheet (upper old)
  free : ¬ book.HasSheet (upper new)
  names_eq : ∃ index, book.locate old = .ok index ∧ book'.names = book.names.set index new
  hasSheet_iff : ∀ name,
    book'.HasSheet name ↔ name = upper new ∨ (book.HasSheet name ∧ name ≠ upper old)
  entryAt_eq : ∀ key, key.sheet ≠ upper new →
    book'.entryAt (key.moved (upper old) (upper new)) = (book.entryAt key).renameSheet old new
  edges_eq : book'.graph.edges = book.graph.edges.map
    (Prod.map (CellKey.moved (upper old) (upper new)) (CellKey.moved (upper old) (upper new)))
  keys_ne : ∀ key ∈ book'.graph.keys, key.sheet ≠ upper old

namespace Renamed

variable (hr : Renamed old new book book')
include hr

theorem ne : upper old ≠ upper new := fun heq => hr.free (heq ▸ hr.titled)

/-- A cell on a sheet of the renamed workbook has moved there, or has stayed. -/
theorem exists_moved {key : CellKey} (hkey : book'.HasSheet key.sheet) :
    ∃ k : CellKey, k.sheet ≠ upper new ∧ book.HasSheet k.sheet ∧
      k.moved (upper old) (upper new) = key := by
  by_cases hnew : key.sheet = upper new
  · refine ⟨⟨upper old, key.position⟩, hr.ne, hr.titled, ?_⟩
    rw [CellKey.moved, if_pos rfl, ← hnew]
  · have hold := ((hr.hasSheet_iff _).1 hkey).resolve_left hnew
    exact ⟨key, hnew, hold.1, CellKey.moved_of_ne hold.2⟩

/-- A sheet is there under its moved name iff it was there. -/
theorem hasSheet_moved_iff {key : CellKey} (hkey : key.sheet ≠ upper new) :
    book'.HasSheet (key.moved (upper old) (upper new)).sheet ↔ book.HasSheet key.sheet := by
  rw [hr.hasSheet_iff]
  by_cases hold : key.sheet = upper old
  · simp [CellKey.moved_of_eq hold, hold, hr.titled]
  · simp [CellKey.moved_of_ne hold, hold, hkey]

theorem formulaAt_eq {key : CellKey} (hkey : key.sheet ≠ upper new) :
    book'.formulaAt (key.moved (upper old) (upper new)) =
      (book.formulaAt key).map fun e => if e.mentions old then e.renameSheet old new else e := by
  rw [Workbook.formulaAt_eq, hr.entryAt_eq key hkey, Cell.expr?_renameSheet,
    ← Workbook.formulaAt_eq]

/-- No formula refers to the old name. -/
theorem not_mentions (h' : book'.Indexed) {key : CellKey} {e : Expr}
    (he : book'.formulaAt key = some e) : e.mentions old = false := by
  obtain ⟨cell, hc, -⟩ := exists_cellAt he
  obtain ⟨k, hk, -, rfl⟩ := hr.exists_moved (h'.hasSheet_of_cellAt hc)
  rw [hr.formulaAt_eq hk] at he
  obtain ⟨e₀, -, rfl⟩ := Option.map_eq_some_iff.1 he
  by_cases hmentions : e₀.mentions old
  · rw [if_pos hmentions]
    exact Formula.mentions_renameSheet hr.ne e₀
  · rw [if_neg hmentions]
    simpa using hmentions

end Renamed

/-! ## The same values -/

/-- A formula that does not mention a sheet reads no cell of it from another sheet. -/
theorem sheet_ne_of_not_mentions {e : Expr} (he : e.mentions new = false) {home : String}
    (hhome : home ≠ upper new) {r : Reference} (hr : r ∈ e.references) {source : CellKey}
    (hsource : r.cell? home = some source) : source.sheet ≠ upper new := by
  obtain ⟨p, -, -, rfl⟩ := cell?_eq_some_iff.1 hsource
  rcases hsheet : r.sheet with _ | sheet
  · exact hhome
  · exact Formula.upper_ne_of_not_mentions he hr hsheet

theorem hasSheet_of_mem_readsAt (h : book.Indexed) {key source : CellKey}
    (hsource : source ∈ book.readsAt key) : book.HasSheet key.sheet := by
  rcases he : book.formulaAt key with _ | e
  · rw [readsAt_eq_nil he] at hsource
    exact absurd hsource List.not_mem_nil
  · obtain ⟨cell, hc, -⟩ := exists_cellAt he
    exact h.hasSheet_of_cellAt hc

section Values

variable (h : Wired book)
  (hnew : ∀ key e, book.formulaAt key = some e → e.mentions new = false)
include h hnew

theorem sheet_ne_of_mem_readsAt {key source : CellKey} (hkey : key.sheet ≠ upper new)
    (hsource : source ∈ book.readsAt key) : source.sheet ≠ upper new := by
  rcases he : book.formulaAt key with _ | e
  · rw [readsAt_eq_nil he] at hsource
    exact absurd hsource List.not_mem_nil
  · obtain ⟨r, hmem, hcell⟩ := (h.mem_readsAt_iff he).1 hsource
    exact sheet_ne_of_not_mentions (hnew key e he) hkey hmem hcell

variable (hr : Renamed old new book book')
include hr

/-- Over the same values a formula amounts to the same under its moved key. -/
theorem Renamed.value_eq {key : CellKey} (hkey : key.sheet ≠ upper new) {e : Expr}
    (he : book.formulaAt key = some e)
    (hvalues : ∀ source ∈ book.readsAt key,
      book'.valueAt (source.moved (upper old) (upper new)) = book.valueAt source) :
    (if e.mentions old then e.renameSheet old new else e).value
        (book'.view (key.moved (upper old) (upper new)).sheet) =
      e.value (book.view key.sheet) := by
  obtain ⟨cell, hc, -⟩ := exists_cellAt he
  have hhome := h.indexed.hasSheet_of_cellAt hc
  have hhome' := (hr.hasSheet_moved_iff hkey).2 hhome
  have hread : ∀ r ∈ e.references,
      (book'.view (key.moved (upper old) (upper new)).sheet).read (r.renameSheet old new) =
        (book.view key.sheet).read r := by
    intro r hmem
    rw [read_view hhome', read_view hhome, CellKey.sheet_moved, cell?_renameSheet]
    rcases hsource : r.cell? key.sheet with _ | source
    · rfl
    · have hne := sheet_ne_of_not_mentions (hnew key e he) hkey hmem hsource
      have hvalue := hvalues source ((h.mem_readsAt_iff he).2 ⟨r, hmem, hsource⟩)
      simp only [Option.map_some, hr.hasSheet_moved_iff hne, hvalue]
  have hscalar : (if e.mentions old then e.renameSheet old new else e).scalar
      (book'.view (key.moved (upper old) (upper new)).sheet) =
        e.scalar (book.view key.sheet) := by
    by_cases hmentions : e.mentions old
    · rw [if_pos hmentions]
      exact Formula.scalar_renameSheet hread
    · rw [if_neg hmentions]
      apply scalar_congr
      intro r hmem
      -- the quotes of an unchanged reference say nothing
      rw [← hread r hmem, read_view hhome', read_view hhome',
        cell?_renameSheet_of_not_mentions (by simpa using hmentions) hmem]
  rw [Expr.value, hscalar, Expr.value]

/-- The workbook under moved keys mirrors the one before. -/
theorem Renamed.mirrored (h' : Wired book') : Mirrored (CellKey.moved (upper old) (upper new))
    (fun key => key.sheet ≠ upper new) book book' where
  closed key hkey source hread :=
    sheet_ne_of_mem_readsAt h hnew hkey ((h.readBy_iff (by simp)).1 hread)
  injective _ _ hk hk' heq := CellKey.moved_injective hk hk' heq
  readBy_iff := by
    intro key hkey source
    simp only [DependencyGraph.ReadBy, ← DependencyGraph.mem_edges_iff h.graph,
      ← DependencyGraph.mem_edges_iff h'.graph, hr.edges_eq, Multiset.mem_map]
    constructor
    · rintro ⟨⟨origin, reader⟩, hedge, heq⟩
      obtain ⟨horigin, hreader⟩ := Prod.mk.inj heq
      have hmem := (h.readBy_iff (by simp)).1 ((DependencyGraph.mem_edges_iff h.graph).1 hedge)
      -- a reader has a formula, so its sheet was there before
      have hsheet : reader.sheet ≠ upper new := fun hsheet =>
        hr.free (hsheet ▸ hasSheet_of_mem_readsAt h.indexed hmem)
      obtain rfl := CellKey.moved_injective hsheet hkey hreader
      exact ⟨origin, hedge, horigin⟩
    · rintro ⟨origin, hedge, rfl⟩
      exact ⟨(origin, key), hedge, rfl⟩
  plain := by
    intro key hkey hplain
    have hplain' : book'.formulaAt (key.moved (upper old) (upper new)) = none := by
      rw [hr.formulaAt_eq hkey, hplain]
      rfl
    rw [valueAt_eq hplain', hr.entryAt_eq key hkey, Cell.value?_renameSheet, ← valueAt_eq hplain]
  formula := by
    intro key hkey e he
    refine ⟨_, ?_, fun hreads => hr.value_eq h hnew hkey he hreads⟩
    rw [hr.formulaAt_eq hkey, he]
    rfl

end Values

section Valid

variable (hr : Renamed old new book book') (h : Valid book) (h' : Valid book')
  (hnew : ∀ key e, book.formulaAt key = some e → e.mentions new = false)
include hr h h' hnew

theorem Renamed.valueAt_eq {key : CellKey} (hkey : key.sheet ≠ upper new) :
    book'.valueAt (key.moved (upper old) (upper new)) = book.valueAt key :=
  (hr.mirrored h.wired hnew h'.wired).valueAt_eq h h' hkey

/-- A cell is what it was, with its formula renamed. -/
theorem Renamed.cellAt_eq {key : CellKey} (hkey : key.sheet ≠ upper new) :
    (book'.cellAt (key.moved (upper old) (upper new))).getD .blank =
      ((book.cellAt key).getD .blank).renameSheet old new := by
  have hvalue? (b : Workbook) (k : CellKey) : ((b.cellAt k).getD .blank).value? = b.valueAt k := by
    rw [valueAt]
    rcases b.cellAt k with _ | cell <;> rfl
  apply Cell.ext_value
  · rw [Cell.unevaluated_renameSheet]
    exact hr.entryAt_eq key hkey
  · rw [Cell.value?_renameSheet, hvalue?, hvalue?]
    exact hr.valueAt_eq h h' hnew hkey

/-- No value differs from the one under the old name. -/
theorem Renamed.not_changed (key : CellKey) : ¬ Changed (book.valuesUnder old new) book' key := by
  rintro ⟨hsheet, hvalue⟩
  obtain ⟨k, hk, -, rfl⟩ := hr.exists_moved hsheet
  have hbefore : book.valuesUnder old new (k.moved (upper old) (upper new)) = book.valueAt k := by
    by_cases hold : k.sheet = upper old
    · rw [CellKey.moved_of_eq hold, valuesUnder, if_pos rfl, CellKey.on, ← hold]
    · rw [CellKey.moved_of_ne hold, valuesUnder, if_neg hk]
  rw [hbefore, hr.valueAt_eq h h' hnew hk, agrees_self] at hvalue
  exact absurd hvalue (by decide)

end Valid

/-! ## Edges -/

section Edges

variable {g : DependencyGraph}

/-- What a cell of the renamed sheet reads moves with the cell. -/
theorem sourcesOf_moveNodes_new {old new : String} (h : g.WellFormed) (hne : old ≠ new)
    {p : Position} (hnone : ∀ u, (u, ⟨new, p⟩) ∉ g.edges) :
    (moveNodes g old new).sourcesOf ⟨new, p⟩ =
      (g.sourcesOf ⟨old, p⟩).map (CellKey.moved old new) := by
  rw [DependencyGraph.sourcesOf, (moveNodes_spec h hne).2.1, Multiset.filter_map, Multiset.map_map,
    DependencyGraph.sourcesOf, Multiset.map_map]
  have hfilter : g.edges.filter ((·.2 = ⟨new, p⟩) ∘ Prod.map (CellKey.moved old new)
      (CellKey.moved old new)) = g.edges.filter (·.2 = ⟨old, p⟩) := by
    apply Multiset.filter_congr
    rintro ⟨u, v⟩ hedge
    change v.moved old new = ⟨new, p⟩ ↔ v = ⟨old, p⟩
    by_cases hold : v.sheet = old
    · obtain ⟨name, q⟩ := v
      obtain rfl : name = old := hold
      simp [CellKey.moved]
    · rw [CellKey.moved_of_ne hold]
      constructor
      · rintro rfl
        exact absurd hedge (hnone u)
      · rintro rfl
        exact absurd rfl hold
  rw [hfilter]
  rfl

variable {index : Nat} {sheet : Sheet} (hs : book.sheets[index]? = some sheet)
  (hfree : ¬ book.HasSheet (upper new)) (hw : Wired book)
include hs hfree hw

/-- The references of every formula have moved with the edges, also on the renamed sheet. -/
theorem sourcesOf_retitle_all (key : CellKey) :
    (book.retitle index sheet.name new).graph.sourcesOf key =
      ((((book.retitle index sheet.name new).entryAt key).targets.map
        (Formula.Target.rename (upper sheet.name) (upper new))).filterMap (resolve key.sheet) :
          List CellKey) := by
  by_cases hnew : key.sheet = upper new
  · have hne := ne_of_free hs hfree
    have hcell := cellAt_retitle hs hw.indexed hfree key
    rw [if_pos hnew] at hcell
    obtain ⟨name, p⟩ := key
    obtain rfl : name = upper new := hnew
    have hentry : (book.retitle index sheet.name new).entryAt ⟨upper new, p⟩ =
        book.entryAt ⟨upper sheet.name, p⟩ := by
      rw [entryAt, hcell, entryAt]
    have hmoved : CellKey.moved (upper sheet.name) (upper new) ⟨upper sheet.name, p⟩ =
        ⟨upper new, p⟩ := CellKey.moved_of_eq rfl
    -- no formula is stored where there is no sheet
    have hnone : ∀ u, (u, ⟨upper new, p⟩) ∉ book.graph.edges := fun u hedge =>
      hfree (hasSheet_of_mem_readsAt hw.indexed
        ((hw.readBy_iff (by simp)).1 ((DependencyGraph.mem_edges_iff hw.graph).1 hedge)))
    change (moveNodes book.graph (upper sheet.name) (upper new)).sourcesOf _ = _
    rw [sourcesOf_moveNodes_new hw.graph hne hnone, hw.sourcesOf_eq _ (by simp), hentry,
      Multiset.map_coe, map_moved_readsAt hw.indexed (upper_upper new), hmoved]
  · exact sourcesOf_retitle hs hfree hw hnew

end Edges

/-! ## The call -/

theorem names_retitle {index : Nat} {sheet : Sheet} (hs : book.sheets[index]? = some sheet) :
    (book.retitle index sheet.name new).names = book.names.set index new := by
  apply List.ext_getElem?
  intro i
  have hlt : index < book.sheets.length := (List.getElem?_eq_some_iff.1 hs).1
  rw [names, List.getElem?_map, getElem?_retitle hs, names, List.getElem?_set, List.length_map,
    List.getElem?_map]
  by_cases hi : index = i
  · simp [hi, hi ▸ hlt]
  · simp [hi]

section Call

variable {index : Nat} {sheet : Sheet} (hs : book.sheets[index]? = some sheet)
  (h : Valid book) (hfree : ¬ book.HasSheet (upper new))
include hs h hfree

/-- When all texts are replaced, every cell has moved, with its formula renamed. -/
theorem entryAt_rewrite (hname : nameFault? new = none) {key : CellKey}
    (hkey : key.sheet ≠ upper new) :
    (book.rewrite index sheet.name new).1.entryAt (key.moved (upper sheet.name) (upper new)) =
      (book.entryAt key).renameSheet sheet.name new := by
  obtain ⟨done, hreplaced, hdone, -⟩ := replaced_rewrite h hs hfree
  have hcell : (book.retitle index sheet.name new).cellAt
      (key.moved (upper sheet.name) (upper new)) = book.cellAt key := by
    rw [cellAt_retitle hs h.wired.indexed hfree, CellKey.position_moved]
    by_cases hold : key.sheet = upper sheet.name
    · rw [CellKey.moved_of_eq hold, if_pos rfl, ← hold]
    · rw [CellKey.moved_of_ne hold, if_neg hkey, if_neg hold]
  have hformula : (book.retitle index sheet.name new).formulaAt
      (key.moved (upper sheet.name) (upper new)) = book.formulaAt key := by
    rw [formulaAt, hcell, formulaAt]
  rcases htext : (book.retitle index sheet.name new).renamedText sheet.name new
      (key.moved (upper sheet.name) (upper new)) with _ | text
  · have hnone : ∀ e, book.formulaAt key = some e → e.mentions sheet.name = false := by
      intro e he
      simpa [renamedText, hformula, he] using htext
    rw [entryAt, hreplaced.cellAt_eq, if_neg (by simp [hdone, htext]), hcell,
      Cell.renameSheet_of_not_mentions (fun e he => hnone e (by rwa [Workbook.formulaAt_eq])),
      entryAt]
  · obtain ⟨e, he, hmentions, rfl⟩ := renamedText_eq_some_iff.1 htext
    rw [hformula] at he
    have hparsed := (h.wired.parsed he).renameSheet sheet.name (quote_not_mem hname)
    obtain ⟨cell, hc, hexpr⟩ := exists_cellAt he
    rw [entryAt, hreplaced.cellAt_eq, if_pos ((hdone _).2 (by simp [htext])), htext,
      Cell.ofContent_toText hparsed, entryAt, hc]
    cases cell with
    | formula content e' value =>
      obtain rfl : e' = e := Option.some.inj hexpr
      simp [Cell.unevaluated, Cell.renameSheet, hmentions]
    | _ => simp [Cell.expr?] at hexpr

/-- The edges are those of before, moved at both ends. -/
theorem edges_of_agrees_rewrite (hname : nameFault? new = none)
    (ha : Agrees (book.rewrite index sheet.name new).1 book') (h' : Wired book') :
    book'.graph.edges = book.graph.edges.map
      (Prod.map (CellKey.moved (upper sheet.name) (upper new))
        (CellKey.moved (upper sheet.name) (upper new))) := by
  obtain ⟨done, hreplaced, hdone, -⟩ := replaced_rewrite h hs hfree
  have hi := indexed_retitle hs h.wired.indexed hfree
  obtain ⟨hgraph, hedges, -⟩ := moveNodes_spec h.wired.graph (ne_of_free hs hfree)
  rw [← hedges]
  apply DependencyGraph.edges_eq_of_sourcesOf h'.graph hgraph
  intro key
  rw [h'.sourcesOf_eq key (by simp), ha.readsAt_eq,
    hreplaced.readsAt_eq hi (sound_retitle hs h.wired.sound) (quote_not_mem hname) hdone,
    ← sourcesOf_retitle_all hs hfree h.wired]
  rfl

theorem renamed_settle (hname : nameFault? new = none) :
    let b := (book.rewrite index sheet.name new).1
    let settled := ((b.nodesOn new).foldl (fun book key => (book.ensureAt key).link key) b).settle
      (book.rewrite index sheet.name new).2 (b.nodesOn new)
    Renamed sheet.name new book settled.1 := by
  intro b settled
  obtain ⟨done, hreplaced, hdone, -⟩ := replaced_rewrite h hs hfree
  obtain ⟨hlinks, hnodes⟩ := wiredOff_rewrite h hs hfree hname
  obtain ⟨hwired, hlinked, -, hkeys⟩ := foldl_link_spec hlinks hnodes
  have hprogress := (settle_spec hwired (book.rewrite index sheet.name new).2 (b.nodesOn new)).1
  have ha : Agrees b settled.1 := hlinked.trans (hprogress.agrees hwired.indexed)
  have hedges := edges_of_agrees_rewrite hs h hfree hname ha (hprogress.wired hwired)
  have hnames : settled.1.names = (book.retitle index sheet.name new).names :=
    ha.names_eq.trans hreplaced.names_eq
  refine ⟨hasSheet_of_getElem? hs, hfree, ⟨index, ?_, ?_⟩, ?_, ?_, hedges, ?_⟩
  · exact (locate_eq_ok_iff h.wired.indexed).2 ⟨sheet, hs, rfl⟩
  · exact hnames.trans (names_retitle hs)
  · intro name
    rw [← hasSheet_retitle hs h.wired.indexed hfree, HasSheet, HasSheet, hnames]
  · intro key hkey
    rw [ha.entryAt_eq]
    exact entryAt_rewrite hs h hfree hname hkey
  · intro key hkey
    have hgraph : settled.1.graph = _ := hprogress.graph_eq
    rw [hgraph] at hkey
    rcases hkeys key hkey with hkey | ⟨reader, hkey⟩
    · rw [hreplaced.graph_eq, mem_keys_retitle hs hfree h.wired] at hkey
      obtain ⟨k, -, rfl⟩ := hkey
      exact CellKey.sheet_moved_ne (ne_of_free hs hfree) k
    · -- what a formula reads is the source of an edge, and edges have moved
      rw [← ha.readsAt_eq] at hkey
      have hmem := (DependencyGraph.mem_edges_iff (hprogress.wired hwired).graph).2
        (((hprogress.wired hwired).readBy_iff (by simp)).2 hkey)
      have hmoved : (key, reader) ∈ settled.1.graph.edges := hmem
      rw [hedges] at hmoved
      obtain ⟨e, -, heq⟩ := Multiset.mem_map.1 hmoved
      obtain ⟨rfl, -⟩ := Prod.mk.inj heq
      exact CellKey.sheet_moved_ne (ne_of_free hs hfree) e.1

end Call

/-- The name of the sheet may be given in any case. -/
theorem Renamed.of_upper_eq {old' : String} (hr : Renamed old' new book book')
    (hold : upper old' = upper old) : Renamed old new book book' := by
  obtain ⟨htitled, hfree, ⟨index, hindex, hnames⟩, hsheets, hentry, hedges, hkeys⟩ := hr
  rw [hold] at htitled hedges
  simp only [hold] at hsheets hentry hkeys
  refine ⟨htitled, hfree, ⟨index, ?_, hnames⟩, hsheets, ?_, hedges, hkeys⟩
  · rw [locate, position?] at hindex ⊢
    rw [← hold]
    rcases hi : book.registry[upper old']? with _ | i
    · simp [hi] at hindex
    · simpa [hi] using hindex
  · intro key hkey
    rw [hentry key hkey, Cell.renameSheet_congr hold]

/-- Every successful call renames the sheet everywhere. -/
theorem renamed_renameSheet (h : Valid book) {o : Outcome Unit}
    (ho : book.renameSheet old new = .ok o) : Renamed old new book o.book := by
  obtain ⟨index, hindex, hrest⟩ := bind_eq_ok_iff.1 ho
  obtain ⟨_, hcheck, -⟩ := bind_eq_ok_iff.1 hrest
  obtain ⟨sheet, hs, hold⟩ := (locate_eq_ok_iff h.wired.indexed).1 hindex
  obtain ⟨hname, hfree⟩ := (checkName_eq_ok_iff h.wired.indexed).1 hcheck
  rw [renameSheet_eq hindex hs hcheck] at ho
  obtain rfl := Except.ok.inj ho
  exact (renamed_settle hs h hfree hname).of_upper_eq hold

/-! ## Sheets at their places -/

/-- A sheet keeps its place, and its cells have moved under its name of now. -/
theorem Renamed.on_name (hr : Renamed old new book book') (h : book.Indexed) {i : Nat}
    {sheet sheet' : Sheet} (hs : book.sheets[i]? = some sheet)
    (hs' : book'.sheets[i]? = some sheet') (p : Position) :
    CellKey.on sheet'.name p = (CellKey.on sheet.name p).moved (upper old) (upper new) := by
  obtain ⟨index, hindex, hnames⟩ := hr.names_eq
  obtain ⟨titled, ht, hold⟩ := (locate_eq_ok_iff h).1 hindex
  have hname := congrArg (·[i]?) hnames
  simp only [names, List.getElem?_map, hs', hs, List.getElem?_set, List.length_map,
    Option.map_some] at hname
  by_cases hi : index = i
  · subst hi
    rw [ht] at hs
    obtain rfl := Option.some.inj hs
    have hlt : index < book.sheets.length := (List.getElem?_eq_some_iff.1 ht).1
    simp only [if_pos, hlt, Option.some.injEq] at hname
    rw [hname, CellKey.on, CellKey.on, CellKey.moved_of_eq hold]
  · rw [if_neg hi, Option.some.injEq] at hname
    have hother : (CellKey.on sheet.name p).sheet ≠ upper old := fun hsame =>
      hi (h.eq_of_upper_eq ht hs (hold.trans hsame.symm))
    rw [hname, CellKey.moved_of_ne hother]

theorem hasContent_getD (sheet : Sheet) (p : Position) :
    ((sheet.cell? p).getD .blank).hasContent = sheet.hasContent p := by
  rw [Sheet.hasContent, Sheet.content?, Cell.hasContent]
  rcases sheet.cell? p with _ | cell <;> rfl

theorem value?_getD (sheet : Sheet) (p : Position) :
    ((sheet.cell? p).getD .blank).value? = sheet.value? p := by
  rw [Sheet.value?]
  rcases sheet.cell? p with _ | cell <;> rfl

/-- Renaming a sheet of a reachable workbook keeps its meaning, if no formula refers to the new name
    before. Sheets keep their places and extents. Every cell keeps its value and content, but for
    the formulas that mention the sheet, whose trees are renamed and printed anew. Afterwards
    neither formulas nor nodes are left with the old name, every edge has moved at both ends, and
    listeners are told nothing. -/
theorem rename_keeps_meaning (commands : List Command) {old new : String} {o : Outcome Unit}
    (ho : (after commands).renameSheet old new = .ok o)
    (hnew : ∀ key e, (after commands).Stores key e → e.mentions new = false) :
    let book := after commands
    let moved := CellKey.moved (upper old) (upper new)
    (∃ index, book.locate old = .ok index ∧ o.book.names = book.names.set index new) ∧
    (∀ (i : Nat) (sheet sheet' : Sheet), book.sheets[i]? = some sheet →
      o.book.sheets[i]? = some sheet' → sheet'.extent = sheet.extent ∧
        ∀ p, sheet'.value? p = sheet.value? p ∧
          (sheet'.cell? p).getD .blank = ((sheet.cell? p).getD .blank).renameSheet old new) ∧
    (∀ key e, o.book.Stores key e → e.mentions old = false) ∧
    (∀ key ∈ o.book.graph.keys, key.sheet ≠ upper old) ∧
    o.book.graph.edges = book.graph.edges.map (Prod.map moved moved) ∧
    o.announcements = [] := by
  intro book moved
  have h : Valid book := valid_after commands
  have hr : Renamed old new book o.book := renamed_renameSheet h ho
  obtain ⟨h', hannounced, -⟩ := edited_renameSheet h ho
  have hi := h.wired.indexed
  have hi' := h'.wired.indexed
  have hformulas : ∀ key e, book.formulaAt key = some e → e.mentions new = false :=
    fun key e he => hnew key e ((stores_iff hi).2 he)
  refine ⟨hr.names_eq, ?_, fun key e he => hr.not_mentions hi' ((stores_iff hi').1 he),
    hr.keys_ne, hr.edges_eq, ?_⟩
  · intro i sheet sheet' hs hs'
    have hmem := List.mem_of_getElem? hs
    have hmem' := List.mem_of_getElem? hs'
    have hcell (p : Position) :
        (sheet'.cell? p).getD .blank = ((sheet.cell? p).getD .blank).renameSheet old new := by
      have hother : (CellKey.on sheet.name p).sheet ≠ upper new := fun hsame =>
        hr.free (hsame ▸ hasSheet_of_getElem? hs)
      have hmoved := hr.cellAt_eq h h' hformulas hother
      rwa [← hr.on_name hi hs hs', hi'.cellAt_eq hmem' rfl, hi.cellAt_eq hmem rfl] at hmoved
    refine ⟨?_, fun p => ⟨?_, hcell p⟩⟩
    · apply Sheet.extent_congr (h'.wired.sound sheet' hmem').toCounted
        (h.wired.sound sheet hmem).toCounted
      intro p
      rw [← hasContent_getD, hcell, Cell.hasContent_renameSheet, hasContent_getD]
    · rw [← value?_getD, hcell, Cell.value?_renameSheet, value?_getD]
  · obtain ⟨-, hnil⟩ | ⟨⟨key, hchanged⟩, -⟩ := hannounced
    · exact hnil
    · exact absurd hchanged (hr.not_changed h h' hformulas key)

/-- A sheet with a formula that refers to it by name is renamed. -/
theorem rename_keeps_meaning_self_qualified :
    let book := after [.addSheet (some "A"), .write "A" "A1" (some "=A!B1")]
    ∃ o, book.renameSheet "A" "B" = .ok o ∧
      (∀ key ∈ o.book.graph.keys, key.sheet ≠ "A") ∧ o.announcements = [] := by
  let commands : List Command := [.addSheet (some "A"), .write "A" "A1" (some "=A!B1")]
  have h := valid_after commands
  have hname : nameFault? "A" = none := rfl
  have hlocation : Position.ofLocation "A1" = .ok ⟨0, 0⟩ := rfl
  obtain ⟨hnames, hentry⟩ := entries_first_write hname hlocation (some "=A!B1")
  have hsheets : ∀ n, (after commands).HasSheet n ↔ n = upper "A" := hasSheet_of_names hnames
  have hcheck : (after commands).checkName "B" = .ok () :=
    (checkName_eq_ok_iff h.wired.indexed).2 ⟨rfl, fun hsheet => absurd ((hsheets _).1 hsheet)
      (by decide)⟩
  obtain ⟨index, sheet, hlocate, hs, -⟩ :=
    locate_of_hasSheet h.wired.indexed ((hsheets _).2 rfl)
  have ho := renameSheet_eq hlocate hs hcheck
  have hnew : ∀ key e, (after commands).Stores key e → e.mentions "B" = false := by
    intro key e he
    have hformula := (stores_iff h.wired.indexed).1 he
    rw [formulaAt_eq, hentry] at hformula
    split at hformula
    · have hcontent : Cell.ofContent (some "=A!B1") =
          .formula "=A!B1" (.ref ⟨some ⟨"A", false⟩, "B1"⟩) none := by with_unfolding_all rfl
      rw [hcontent] at hformula
      obtain rfl := Option.some.inj hformula
      rfl
    · exact absurd hformula (by simp [Cell.expr?])
  obtain ⟨-, -, -, hkeys, -, hnil⟩ := rename_keeps_meaning commands ho hnew
  exact ⟨_, ho, hkeys, hnil⟩

end Workbook

end Spreadsheet
