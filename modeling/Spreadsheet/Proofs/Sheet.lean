import Mathlib.Data.List.Nodup
import Mathlib.Data.List.Perm.Basic
import Spreadsheet.Sheet
import Spreadsheet.Proofs.Cell
import Spreadsheet.Proofs.Occupancy

/-!
# Sheets, cell by cell

Every edit of a sheet is one equation on `cell?`. The counts of a sheet are the numbers of cells
with content in each row and column, and its cells agree with their contents as long as values are
given to formulas only.

Results:
* `cell?_write`, `cell?_ensure`, `cell?_evaluated`: the effect of each edit.
* `Counted` is kept by every edit; `extent_congr`: the extent of a sheet follows from where it has
  content.
* `Sound` is kept by writes, by new places and by values of formulas.
-/

namespace Spreadsheet

namespace Sheet

/-! ## Single cells -/

theorem compare_eq_iff {p q : Position} : Position.compare p q = .eq ↔ p = q :=
  ⟨Std.LawfulEqCmp.eq_of_compare, fun h => h ▸ Std.ReflCmp.compare_self⟩

theorem cell?_named (name : String) (p : Position) : (named name).cell? p = none := by
  simp [named, cell?]

theorem cells_write (s : Sheet) (p : Position) (content : Option String) :
    (s.write p content).cells = s.cells.insert p (Cell.ofContent content) := by
  unfold write
  dsimp only
  split
  · rfl
  · split <;> rfl

theorem cell?_write (s : Sheet) (p q : Position) (content : Option String) :
    (s.write p content).cell? q = if q = p then some (Cell.ofContent content) else s.cell? q := by
  rw [cell?, cells_write, Std.TreeMap.getElem?_insert, cell?]
  simp only [compare_eq_iff, eq_comm (a := p)]

theorem cell?_ensure (s : Sheet) (p q : Position) :
    (s.ensure p).cell? q = if q = p then some ((s.cell? p).getD .blank) else s.cell? q := by
  simp only [cell?, ensure, Std.TreeMap.getElem?_insertIfNew, compare_eq_iff]
  by_cases hq : q = p
  · subst hq
    rcases hs : s.cells[q]? with _ | cell
    · have hmem : q ∉ s.cells := by
        rw [Std.TreeMap.mem_iff_isSome_getElem?, hs]
        exact Bool.false_ne_true
      simp [hmem]
    · have hmem : q ∈ s.cells := by
        rw [Std.TreeMap.mem_iff_isSome_getElem?, hs]
        rfl
      simp [hmem]
  · simp [hq, Ne.symm hq]

theorem cell?_evaluated (s : Sheet) (p q : Position) (value : CellValue) :
    (s.evaluated p value).cell? q =
      if q = p then (s.cell? p).map (Cell.evaluated value) else s.cell? q := by
  simp only [cell?, evaluated, Std.TreeMap.getElem?_modify, compare_eq_iff, eq_comm (a := p)]

theorem name_write (s : Sheet) (p : Position) (content : Option String) :
    (s.write p content).name = s.name := by
  unfold write
  dsimp only
  split
  · rfl
  · split <;> rfl

theorem content?_ensure (s : Sheet) (p q : Position) :
    (s.ensure p).content? q = s.content? q := by
  rw [content?, cell?_ensure, content?]
  by_cases hq : q = p
  · rw [if_pos hq, hq]
    rcases s.cell? p with _ | cell <;> rfl
  · rw [if_neg hq]

theorem content?_evaluated (s : Sheet) (p q : Position) (value : CellValue) :
    (s.evaluated p value).content? q = s.content? q := by
  rw [content?, cell?_evaluated, content?]
  by_cases hq : q = p
  · rw [if_pos hq, hq]
    rcases s.cell? p with _ | cell
    · rfl
    · exact Cell.content?_evaluated value cell
  · rw [if_neg hq]

/-! ## Contents -/

theorem mem_contents_iff {s : Sheet} {p : Position} {content : String} :
    (p, content) ∈ s.contents ↔ s.content? p = some content := by
  rw [contents, List.mem_filterMap, content?, Option.bind_eq_some_iff]
  constructor
  · rintro ⟨⟨q, cell⟩, hmem, heq⟩
    obtain ⟨c, hc, heq⟩ := Option.map_eq_some_iff.1 heq
    obtain ⟨rfl, rfl⟩ := Prod.mk.inj heq
    exact ⟨cell, Std.TreeMap.mem_toList_iff_getElem?_eq_some.1 hmem, hc⟩
  · rintro ⟨cell, hcell, hc⟩
    exact ⟨(p, cell), Std.TreeMap.mem_toList_iff_getElem?_eq_some.2 hcell, by simp [hc]⟩

/-- The positions with content. -/
def occupied (s : Sheet) : List Position :=
  s.contents.map Prod.fst

theorem mem_occupied_iff {s : Sheet} {p : Position} : p ∈ s.occupied ↔ s.hasContent p := by
  rw [occupied, List.mem_map, hasContent, Option.isSome_iff_exists]
  constructor
  · rintro ⟨⟨q, content⟩, hmem, rfl⟩
    exact ⟨content, mem_contents_iff.1 hmem⟩
  · rintro ⟨content, hcontent⟩
    exact ⟨(p, content), mem_contents_iff.2 hcontent, rfl⟩

theorem occupied_nodup (s : Sheet) : s.occupied.Nodup := by
  have hkeys : s.cells.toList.Pairwise fun a b => a.1 ≠ b.1 :=
    s.cells.distinct_keys_toList.imp fun hne heq => hne (compare_eq_iff.2 heq)
  rw [occupied, List.Nodup, List.pairwise_map]
  refine List.Pairwise.filterMap _ ?_ hkeys
  rintro ⟨p, cell⟩ ⟨q, cell'⟩ hne x hx y hy heq
  obtain ⟨c, -, rfl⟩ := Option.map_eq_some_iff.1 hx
  obtain ⟨d, -, rfl⟩ := Option.map_eq_some_iff.1 hy
  exact hne heq

theorem contents_nodup (s : Sheet) : s.contents.Nodup :=
  List.Nodup.of_map Prod.fst s.occupied_nodup

/-- Sheets with the same contents list them alike, in row-major order. -/
theorem contents_eq {s t : Sheet} (h : ∀ p, s.content? p = t.content? p) :
    s.contents = t.contents := by
  have hperm : s.contents.Perm t.contents := by
    rw [List.perm_ext_iff_of_nodup s.contents_nodup t.contents_nodup]
    rintro ⟨p, content⟩
    rw [mem_contents_iff, mem_contents_iff, h]
  have hsorted (s : Sheet) :
      s.contents.Pairwise fun a b => Position.compare a.1 b.1 = .lt := by
    refine List.Pairwise.filterMap _ ?_ s.cells.ordered_keys_toList
    rintro ⟨p, cell⟩ ⟨q, cell'⟩ hlt x hx y hy
    obtain ⟨c, -, rfl⟩ := Option.map_eq_some_iff.1 hx
    obtain ⟨d, -, rfl⟩ := Option.map_eq_some_iff.1 hy
    exact hlt
  refine hperm.eq_of_pairwise ?_ (hsorted s) (hsorted t)
  intro a b _ _ hlt hgt
  rw [Std.OrientedCmp.gt_of_lt hlt] at hgt
  exact absurd hgt (by decide)

/-! ## Counts -/

/-- The number of cells with content at the positions whose row (or column) `f` is `i`. -/
def countIn (s : Sheet) (f : Position → Nat) (i : Nat) : Nat :=
  s.contents.countP fun entry => f entry.1 == i

/-- One cell, and the others. -/
theorem countIn_split (s : Sheet) (f : Position → Nat) (p : Position) (i : Nat) :
    s.countIn f i = (if s.hasContent p ∧ f p = i then 1 else 0) +
      (s.contents.filter (·.1 ≠ p)).countP fun entry => f entry.1 == i := by
  have hperm : s.contents.Perm
      ((s.content? p).toList.map (Prod.mk p) ++ s.contents.filter (·.1 ≠ p)) := by
    rw [List.perm_ext_iff_of_nodup s.contents_nodup]
    · rintro ⟨q, content⟩
      rw [List.mem_append, List.mem_filter, mem_contents_iff]
      by_cases hq : q = p
      · subst hq
        simp
      · simp [hq, Ne.symm hq]
    · rw [List.nodup_append]
      refine ⟨?_, s.contents_nodup.filter _, ?_⟩
      · rcases s.content? p with _ | content <;> simp
      · rintro ⟨q, content⟩ hq ⟨r, content'⟩ hr heq
        obtain ⟨c, -, hc⟩ := List.mem_map.1 hq
        obtain ⟨rfl, rfl⟩ := Prod.mk.inj heq
        have := (List.mem_filter.1 hr).2
        simp [(Prod.mk.inj hc).1] at this
  rw [countIn, hperm.countP_eq, List.countP_append]
  congr 1
  rw [hasContent]
  rcases s.content? p with _ | content
  · simp
  · by_cases hf : f p = i
    · simp [hf]
    · simp [hf]

/-- Sheets that agree except at one cell count the other cells alike. -/
theorem countIn_others {s t : Sheet} {p : Position} (h : ∀ q ≠ p, s.content? q = t.content? q)
    (f : Position → Nat) (i : Nat) :
    ((s.contents.filter (·.1 ≠ p)).countP fun entry => f entry.1 == i) =
      (t.contents.filter (·.1 ≠ p)).countP fun entry => f entry.1 == i := by
  apply List.Perm.countP_eq
  rw [List.perm_ext_iff_of_nodup (s.contents_nodup.filter _) (t.contents_nodup.filter _)]
  rintro ⟨q, content⟩
  rw [List.mem_filter, List.mem_filter, mem_contents_iff, mem_contents_iff]
  by_cases hq : q = p
  · simp [hq]
  · rw [h q hq]

/-! ## Counts -/

/-- The counts of rows and columns are exact. -/
structure Counted (s : Sheet) : Prop where
  rows : s.rows.Counts (s.countIn Position.row)
  cols : s.cols.Counts (s.countIn Position.col)

/-- The counts follow from where there is content. -/
theorem countIn_congr {s t : Sheet} (h : ∀ p, s.hasContent p = t.hasContent p)
    (f : Position → Nat) : s.countIn f = t.countIn f := by
  have hperm : s.occupied.Perm t.occupied := by
    rw [List.perm_ext_iff_of_nodup s.occupied_nodup t.occupied_nodup]
    intro p
    rw [mem_occupied_iff, mem_occupied_iff, h]
  have hcount (s : Sheet) (i : Nat) : s.countIn f i = s.occupied.countP fun p => f p == i := by
    rw [countIn, occupied, List.countP_map]
    rfl
  funext i
  rw [hcount, hcount]
  exact hperm.countP_eq _

/-- An edit that leaves counts and contents alone keeps the counts exact. -/
theorem Counted.congr {s t : Sheet} (h : s.Counted) (hrows : t.rows = s.rows)
    (hcols : t.cols = s.cols) (hcontent : ∀ p, t.content? p = s.content? p) : t.Counted := by
  have hcount := countIn_congr fun p => congrArg Option.isSome (hcontent p)
  constructor
  · rw [hrows, hcount]
    exact h.rows
  · rw [hcols, hcount]
    exact h.cols

theorem counted_named (name : String) : (named name).Counted := by
  have hcount (f : Position → Nat) : (named name).countIn f = fun _ => 0 := by
    funext i
    simp [named, countIn, contents]
  constructor
  · rw [hcount]
    exact Occupancy.counts_empty
  · rw [hcount]
    exact Occupancy.counts_empty

theorem Counted.ensure {s : Sheet} (h : s.Counted) (p : Position) : (s.ensure p).Counted :=
  h.congr rfl rfl (s.content?_ensure p)

theorem Counted.evaluated {s : Sheet} (h : s.Counted) (p : Position) (value : CellValue) :
    (s.evaluated p value).Counted :=
  h.congr rfl rfl (s.content?_evaluated p · value)

theorem content?_write (s : Sheet) (p q : Position) (content : Option String) :
    (s.write p content).content? q =
      if q = p then (Cell.ofContent content).content? else s.content? q := by
  rw [content?, cell?_write]
  split <;> rfl

/-- The counts after a write: the written cell is counted anew. -/
theorem countIn_write (s : Sheet) (p : Position) (content : Option String) (f : Position → Nat)
    (i : Nat) :
    (s.write p content).countIn f i + (if s.hasContent p ∧ f p = i then 1 else 0) =
      s.countIn f i + if (Cell.ofContent content).hasContent ∧ f p = i then 1 else 0 := by
  have hothers := countIn_others (s := s.write p content) (t := s) (p := p)
    (fun q hq => by rw [content?_write, if_neg hq]) f i
  have hwritten : (s.write p content).hasContent p = (Cell.ofContent content).hasContent := by
    rw [hasContent, content?_write, if_pos rfl, Cell.hasContent]
  rw [countIn_split _ f p, countIn_split s f p, hothers, hwritten]
  omega

theorem Counted.write {s : Sheet} (h : s.Counted) (p : Position) (content : Option String) :
    (s.write p content).Counted := by
  have hcount := countIn_write s p content
  rcases hold : s.hasContent p with _ | _
  · rcases hnew : (Cell.ofContent content).hasContent with _ | _
    · have hsame (f : Position → Nat) : (s.write p content).countIn f = s.countIn f := by
        funext i
        simpa [hold, hnew] using hcount f i
      constructor
      · rw [hsame]
        simpa [Sheet.write, hold, hnew] using h.rows
      · rw [hsame]
        simpa [Sheet.write, hold, hnew] using h.cols
    · have hmore (f : Position → Nat) : (s.write p content).countIn f =
          fun i => s.countIn f i + if f p = i then 1 else 0 := by
        funext i
        simpa [hold, hnew] using hcount f i
      constructor
      · rw [hmore]
        simpa [Sheet.write, hold, hnew] using h.rows.add p.row
      · rw [hmore]
        simpa [Sheet.write, hold, hnew] using h.cols.add p.col
  · rcases hnew : (Cell.ofContent content).hasContent with _ | _
    · have hless (f : Position → Nat) : s.countIn f =
          fun i => (s.write p content).countIn f i + if f p = i then 1 else 0 := by
        funext i
        simpa [hold, hnew] using (hcount f i).symm
      have hrows := h.rows
      have hcols := h.cols
      rw [hless] at hrows hcols
      constructor
      · simpa [Sheet.write, hold, hnew] using hrows.remove
      · simpa [Sheet.write, hold, hnew] using hcols.remove
    · have hsame (f : Position → Nat) : (s.write p content).countIn f = s.countIn f := by
        funext i
        simpa [hold, hnew] using hcount f i
      constructor
      · rw [hsame]
        simpa [Sheet.write, hold, hnew] using h.rows
      · rw [hsame]
        simpa [Sheet.write, hold, hnew] using h.cols

/-- The extent of a sheet follows from where it has content. -/
theorem extent_congr {s t : Sheet} (hs : s.Counted) (ht : t.Counted)
    (h : ∀ p, s.hasContent p = t.hasContent p) : s.extent = t.extent := by
  have hrows := ht.rows
  have hcols := ht.cols
  rw [← countIn_congr h] at hrows hcols
  rw [extent, extent, hs.rows.last?_congr hrows, hs.cols.last?_congr hcols]

/-! ## Sound sheets -/

/-- Counts are exact, and cells agree with their contents. -/
structure Sound (s : Sheet) : Prop extends Counted s where
  canonical : ∀ p cell, s.cell? p = some cell → cell.Canonical

theorem sound_named (name : String) : (named name).Sound := by
  refine ⟨counted_named name, fun p cell h => ?_⟩
  simp [cell?_named] at h

theorem Sound.ensure {s : Sheet} (h : s.Sound) (p : Position) : (s.ensure p).Sound := by
  refine ⟨h.toCounted.ensure p, fun q cell hq => ?_⟩
  rw [cell?_ensure] at hq
  split at hq
  · rcases hs : s.cell? p with _ | cell'
    · rw [hs] at hq
      obtain rfl := Option.some.inj hq
      exact Cell.canonical_blank
    · rw [hs] at hq
      obtain rfl := Option.some.inj hq
      exact h.canonical p _ hs
  · exact h.canonical q cell hq

/-- A sheet stays sound if the cell that gets a value is a formula. -/
theorem Sound.evaluated {s : Sheet} (h : s.Sound) {p : Position} {e : Formula.Expr}
    (he : (s.cell? p).bind Cell.expr? = some e) (value : CellValue) :
    (s.evaluated p value).Sound := by
  refine ⟨h.toCounted.evaluated p value, fun q cell hq => ?_⟩
  rw [cell?_evaluated] at hq
  split at hq
  · obtain ⟨old, hold, rfl⟩ := Option.map_eq_some_iff.1 hq
    rw [hold, Option.bind_some] at he
    exact (h.canonical p old hold).evaluated he value
  · exact h.canonical q cell hq

theorem Sound.write {s : Sheet} (h : s.Sound) (p : Position) (content : Option String) :
    (s.write p content).Sound := by
  refine ⟨h.toCounted.write p content, fun q cell hq => ?_⟩
  rw [cell?_write] at hq
  split at hq
  · obtain rfl := Option.some.inj hq
    exact Cell.canonical_ofContent content
  · exact h.canonical q cell hq

end Sheet

end Spreadsheet
