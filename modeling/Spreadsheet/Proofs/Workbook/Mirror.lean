import Spreadsheet.Proofs.Workbook.Edit

/-!
# Formulas that mirror each other

A region of cells that is closed under reading has values of its own: they follow from what is
entered there, whatever the rest of the workbook holds. So a second workbook that holds the same
formulas, perhaps under other keys, gives them the same values.

Results:
* `Imitates`: the cells `f key` of one workbook imitate the cells `key` of another one: they hold
  the same formulas, and are on cycles where those are.
* `Imitates.valueAt_eq`: they have the same values. The induction runs along the evaluation order of
  the other workbook.
* `Mirrored`: the cells `f key` even read the same cells. `Mirrored.reaches_iff`,
  `Mirrored.onCycle_iff`: then paths into the region are mirrored, and so are cycles.
* `mirrored_of_entryAt_eq`: a region with the same entries under the same keys is mirrored.
-/

namespace Spreadsheet.Workbook

open Formula (Expr)

/-- The cells under the keys `f key` of the second workbook imitate those of a region of the first
    one: a formula amounts to the same over the same values, and cycles lead through the same cells.
    Several cells may be imitated by one. -/
structure Imitates (f : CellKey → CellKey) (region : CellKey → Prop) (book book' : Workbook) :
    Prop where
  closed : ∀ key, region key → ∀ source, book.graph.ReadBy source key → region source
  onCycle_iff : ∀ key, region key → (book'.graph.OnCycle (f key) ↔ book.graph.OnCycle key)
  plain : ∀ key, region key → book.formulaAt key = none →
    book'.valueAt (f key) = book.valueAt key
  formula : ∀ key, region key → ∀ e, book.formulaAt key = some e →
    ∃ e', book'.formulaAt (f key) = some e' ∧
      ((∀ source ∈ book.readsAt key, book'.valueAt (f source) = book.valueAt source) →
        e'.value (book'.view (f key).sheet) = e.value (book.view key.sheet))

namespace Imitates

variable {f : CellKey → CellKey} {region : CellKey → Prop} {book book' : Workbook}
  (hm : Imitates f region book book')
  (h : Valid book) (h' : Valid book')
include hm h h'

/-- A cell has the value of the one that it imitates if all that is read has the same values. -/
theorem valueAt_eq_of_reads {key : CellKey} (hkey : region key)
    (hreads : ¬ book.graph.OnCycle key →
      ∀ source ∈ book.readsAt key, book'.valueAt (f source) = book.valueAt source) :
    book'.valueAt (f key) = book.valueAt key := by
  rcases he : book.formulaAt key with _ | e
  · exact hm.plain key hkey he
  · obtain ⟨e', he', hvalue⟩ := hm.formula key hkey e he
    obtain ⟨hcircular, hexact⟩ := h.current key e he
    obtain ⟨hcircular', hexact'⟩ := h'.current (f key) e' he'
    by_cases hcycle : book.graph.OnCycle key
    · rw [hcircular hcycle, hcircular' ((hm.onCycle_iff key hkey).2 hcycle)]
    · rw [hexact hcycle, hexact' (mt (hm.onCycle_iff key hkey).1 hcycle), hvalue (hreads hcycle)]

/-- A cell has the value of the one that it imitates. -/
theorem valueAt_eq {key : CellKey} (hkey : region key) :
    book'.valueAt (f key) = book.valueAt key := by
  induction key using DependencyGraph.evaluation_induction h.wired.graph with
  | step key ih =>
    apply hm.valueAt_eq_of_reads h h' hkey
    intro hcycle source hsource
    have hread : book.graph.ReadBy source key := (h.wired.readBy_iff (by simp)).2 hsource
    exact ih hcycle source hread (hm.closed key hkey source hread)

end Imitates

/-- The cells under the keys `f key` of the second workbook mirror those of a region of the first
    one: they read the mirrored cells, and a formula amounts to the same over the same values. -/
structure Mirrored (f : CellKey → CellKey) (region : CellKey → Prop) (book book' : Workbook) :
    Prop where
  closed : ∀ key, region key → ∀ source, book.graph.ReadBy source key → region source
  injective : ∀ k k', region k → region k' → f k = f k' → k = k'
  readBy_iff : ∀ key, region key → ∀ source, book'.graph.ReadBy source (f key) ↔
    ∃ origin, book.graph.ReadBy origin key ∧ f origin = source
  plain : ∀ key, region key → book.formulaAt key = none →
    book'.valueAt (f key) = book.valueAt key
  formula : ∀ key, region key → ∀ e, book.formulaAt key = some e →
    ∃ e', book'.formulaAt (f key) = some e' ∧
      ((∀ source ∈ book.readsAt key, book'.valueAt (f source) = book.valueAt source) →
        e'.value (book'.view (f key).sheet) = e.value (book.view key.sheet))

namespace Mirrored

variable {f : CellKey → CellKey} {region : CellKey → Prop} {book book' : Workbook}
  (hm : Mirrored f region book book')
include hm

/-! ## Paths -/

theorem region_of_reaches {u key : CellKey} (hpath : Relation.TransGen book.graph.ReadBy u key)
    (hkey : region key) : region u := by
  induction hpath using Relation.TransGen.head_induction_on with
  | single hread => exact hm.closed _ hkey _ hread
  | head hread _ ih => exact hm.closed _ ih _ hread

/-- The paths into a mirrored cell are the mirrored paths. -/
theorem reaches_iff {key : CellKey} (hkey : region key) (w : CellKey) :
    Relation.TransGen book'.graph.ReadBy w (f key) ↔
      ∃ u, Relation.TransGen book.graph.ReadBy u key ∧ f u = w := by
  constructor
  · intro hpath
    induction hpath using Relation.TransGen.head_induction_on with
    | single hread =>
      obtain ⟨u, hu, hw⟩ := (hm.readBy_iff key hkey _).1 hread
      exact ⟨u, .single hu, hw⟩
    | head hread _ ih =>
      obtain ⟨u, hu, rfl⟩ := ih
      obtain ⟨v, hv, hw⟩ := (hm.readBy_iff u (hm.region_of_reaches hu hkey) _).1 hread
      exact ⟨v, .head hv hu, hw⟩
  · rintro ⟨u, hpath, rfl⟩
    induction hpath using Relation.TransGen.head_induction_on with
    | single hread => exact .single ((hm.readBy_iff key hkey _).2 ⟨_, hread, rfl⟩)
    | head hread hrest ih =>
      have hregion := hm.region_of_reaches hrest hkey
      exact .head ((hm.readBy_iff _ hregion _).2 ⟨_, hread, rfl⟩) ih

theorem onCycle_iff {key : CellKey} (hkey : region key) :
    book'.graph.OnCycle (f key) ↔ book.graph.OnCycle key := by
  rw [DependencyGraph.OnCycle, hm.reaches_iff hkey]
  constructor
  · rintro ⟨u, hpath, hu⟩
    obtain rfl := hm.injective u key (hm.region_of_reaches hpath hkey) hkey hu
    exact hpath
  · exact fun hpath => ⟨key, hpath, rfl⟩

theorem imitates : Imitates f region book book' :=
  ⟨hm.closed, fun _ => hm.onCycle_iff, hm.plain, hm.formula⟩

/-- Mirrored cells have the same values. -/
theorem valueAt_eq (h : Valid book) (h' : Valid book') {key : CellKey} (hkey : region key) :
    book'.valueAt (f key) = book.valueAt key :=
  hm.imitates.valueAt_eq h h' hkey

end Mirrored

/-! ## Regions with the same entries -/

section SameEntries

variable {book book' : Workbook} (h : Wired book) (h' : Wired book')
include h h'

/-- The edges into a cell follow from its entry. -/
theorem readBy_congr {key : CellKey} (hentry : book'.entryAt key = book.entryAt key)
    (source : CellKey) : book'.graph.ReadBy source key ↔ book.graph.ReadBy source key := by
  rw [DependencyGraph.ReadBy, DependencyGraph.ReadBy, h.readBy_iff (by simp),
    h'.readBy_iff (by simp), readsAt, readsAt, hentry]

/-- A region is mirrored under its own keys if its entries are the same. -/
theorem mirrored_of_entryAt_eq {region : CellKey → Prop}
    (hsheets : ∀ key, region key → (book.HasSheet key.sheet ↔ book'.HasSheet key.sheet))
    (hclosed : ∀ key, region key → ∀ source, book.graph.ReadBy source key → region source)
    (hentries : ∀ key, region key → book'.entryAt key = book.entryAt key) :
    Mirrored id region book book' := by
  have hformula {key : CellKey} (hkey : region key) :
      book'.formulaAt key = book.formulaAt key := by
    rw [formulaAt_eq, formulaAt_eq, hentries key hkey]
  constructor
  case closed => exact hclosed
  case injective => exact fun _ _ _ _ heq => heq
  case readBy_iff =>
    intro key hkey source
    simp only [id_eq, exists_eq_right]
    exact readBy_congr h h' (hentries key hkey) source
  case plain =>
    intro key hkey hplain
    rw [id_eq, valueAt_eq hplain, valueAt_eq ((hformula hkey).trans hplain), hentries key hkey]
  case formula =>
    intro key hkey e he
    refine ⟨e, (hformula hkey).trans he, fun hreads => ?_⟩
    obtain ⟨cell, hc, -⟩ := exists_cellAt he
    have hhome := h.indexed.hasSheet_of_cellAt hc
    have hread {r : Formula.Reference} (hr : r ∈ e.references) {source : CellKey}
        (hsource : r.cell? key.sheet = some source) : source ∈ book.readsAt key :=
      (h.mem_readsAt_iff he).2 ⟨r, hr, hsource⟩
    refine value_map id hhome ((hsheets key hkey).1 hhome) (fun _ _ => Option.map_id'.symm)
      (fun r hr source hsource => ?_) fun r hr source hsource => hreads source (hread hr hsource)
    exact (hsheets source (hclosed key hkey source
      ((h.readBy_iff (by simp)).2 (hread hr hsource)))).symm

end SameEntries

end Spreadsheet.Workbook
