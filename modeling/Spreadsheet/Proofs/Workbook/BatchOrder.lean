import Spreadsheet.Proofs.Graph.Evaluation
import Spreadsheet.Proofs.Workbook.Locality

/-!
# Batches list causes before effects

A batch lists the changed cells in the order in which the edit first touched them: the edited cell,
the cells of its cycle, and then all formulas in evaluation order. What changes after a write is
downstream of the edited cell, so neither the edited cell nor its cycle stands before a cause of its
own.

Results:
* `Upstream`: a path leads from one cell to another and none leads back.
* `pairwise_evaluationOrder`: no cell of the evaluation order stands before one upstream of it.
* `touched_passFrom`: the order in which a pass touches cells.
* `CausesFirst`: the cells of a batch stand before the cells of the batch downstream of them.
* `causes_before_effects`: every batch of a write, or of adding or deleting a sheet, does so.
-/

namespace Spreadsheet

open Formula (Reference Scalar)
open Relation (ReflTransGen TransGen)

namespace DependencyGraph

variable {g : DependencyGraph}

/-! ## Upstream cells -/

/-- A path leads from `u` to `v`, and none leads back. -/
def Upstream (g : DependencyGraph) (u v : CellKey) : Prop :=
  TransGen g.ReadBy u v ∧ ¬ TransGen g.ReadBy v u

theorem not_upstream_of_reaches {u v : CellKey} (hpath : ReflTransGen g.ReadBy u v) :
    ¬ g.Upstream v u := by
  rintro ⟨hback, hnone⟩
  rcases Relation.reflTransGen_iff_eq_or_transGen.1 hpath with rfl | hpath
  · exact hnone hback
  · exact hnone hpath

section Order

variable (h : g.WellFormed)
include h

/-- The component of a cell is that of a cell which it reaches, or is taken before it. -/
theorem mem_before_of_reaches {before after : List Nat} {b : Nat}
    (horder : g.condensation.order = before ++ b :: after) {u v : CellKey}
    (hv : v ∈ g.members g.condensation b) (hpath : ReflTransGen g.ReadBy u v) {a : Nat}
    (hu : u ∈ g.members g.condensation a) : a = b ∨ a ∈ before := by
  induction hpath using ReflTransGen.head_induction_on generalizing a with
  | refl => exact Or.inl (component_unique h hu hv)
  | @head u w hread _ ih =>
    obtain ⟨c, hc⟩ := exists_componentId h (mem_keys_of_mem_readersOf hread)
    have hw := (componentId?_eq_some_iff h).1 hc
    by_cases hac : a = c
    · exact hac ▸ ih hw
    · have hlink := (mem_links_iff h).2 ⟨hac, u, hu, w, hw, hread⟩
      right
      rcases ih hw with rfl | hc
      · exact h.exactOrder.order_forward a c before after hlink horder
      · obtain ⟨first, last, rfl⟩ := List.append_of_mem hc
        rw [List.append_assoc, List.cons_append] at horder
        exact List.mem_append_left _
          (h.exactOrder.order_forward a c first (last ++ b :: after) hlink horder)

/-- The cells of a component reach each other. -/
theorem reaches_of_mem_members {id : Nat} {u v : CellKey} (hu : u ∈ g.members g.condensation id)
    (hv : v ∈ g.members g.condensation id) : ReflTransGen g.ReadBy u v :=
  ((componentId?_eq_iff h (mem_keys_of_mem_members h hu) (mem_keys_of_mem_members h hv)).1
    (((componentId?_eq_some_iff h).2 hu).trans ((componentId?_eq_some_iff h).2 hv).symm)).1

/-- No cell of the evaluation order stands before one that is upstream of it. -/
theorem pairwise_evaluationOrder :
    (g.evaluationOrder g.condensation).Pairwise fun u v => ¬ g.Upstream v u := by
  rw [evaluationOrder, List.pairwise_flatMap]
  constructor
  · intro id _
    exact List.pairwise_of_forall_mem_list fun u hu v hv =>
      not_upstream_of_reaches (reaches_of_mem_members h hu hv)
  · rw [List.pairwise_iff_forall_sublist]
    intro a b hab u hu v hv hup
    obtain ⟨front, back, horder, ha, hb⟩ := List.cons_sublist_iff.1 hab
    obtain ⟨first, last, rfl⟩ := List.append_of_mem ha
    have hnodup := h.exactOrder.order_nodup
    rw [List.append_assoc, List.cons_append] at horder
    rw [horder] at hnodup
    have hmem : b ∈ last ++ back := List.mem_append_right _ (List.singleton_sublist.1 hb)
    obtain ⟨-, htail, hapart⟩ := List.nodup_append.1 hnodup
    rcases mem_before_of_reaches h horder hu hup.1.to_reflTransGen hv with rfl | hfirst
    · exact (List.nodup_cons.1 htail).1 hmem
    · exact hapart b hfirst b (List.mem_cons_of_mem _ hmem) rfl

theorem mem_members_of_mem_componentOf {x u : CellKey}
    (hu : u ∈ g.componentOf g.condensation x) :
    ∃ id, x ∈ g.members g.condensation id ∧ u ∈ g.members g.condensation id := by
  rw [componentOf] at hu
  split at hu
  · exact absurd hu List.not_mem_nil
  · rename_i id hid
    exact ⟨id, (componentId?_eq_some_iff h).1 hid, hu⟩

/-- The cell `x`, then cells of its component, then cells in evaluation order: no cell stands before
    one upstream of it if all cells that count are downstream of `x`. -/
theorem pairwise_filter_downstream {x : CellKey} {cycle more : List CellKey}
    (hcycle : cycle.Sublist (g.componentOf g.condensation x))
    (hmore : more.Sublist (g.evaluationOrder g.condensation)) {counts : CellKey → Bool}
    (hdown : ∀ key ∈ x :: (cycle ++ more), counts key → ReflTransGen g.ReadBy x key) :
    ((x :: (cycle ++ more)).filter counts).Pairwise fun u v => ¬ g.Upstream v u := by
  rw [List.pairwise_filter, List.pairwise_cons, List.pairwise_append]
  refine ⟨fun v hv _ hcounts => ?_, ?_, ?_, fun u hu v hv _ hcounts => ?_⟩
  · exact not_upstream_of_reaches (hdown v (List.mem_cons_of_mem _ hv) hcounts)
  · refine List.pairwise_of_forall_mem_list fun u hu v hv _ _ => ?_
    obtain ⟨id, hx, hu⟩ := mem_members_of_mem_componentOf h (hcycle.subset hu)
    obtain ⟨id', hx', hv⟩ := mem_members_of_mem_componentOf h (hcycle.subset hv)
    obtain rfl := component_unique h hx hx'
    exact not_upstream_of_reaches (reaches_of_mem_members h hu hv)
  · exact ((pairwise_evaluationOrder h).sublist hmore).imp fun hnot _ _ => hnot
  · -- from the cycle there is a path through `x`
    obtain ⟨id, hx, hu⟩ := mem_members_of_mem_componentOf h (hcycle.subset hu)
    have hpath := hdown v (List.mem_cons_of_mem _ (List.mem_append_right _ hv)) hcounts
    exact not_upstream_of_reaches ((reaches_of_mem_members h hu hx).trans hpath)

end Order

end DependencyGraph

/-! ## The order of touching -/

/-- A cell that is touched is added to the end, or was touched before. -/
theorem Changes.touched_touch (c : Changes) (key : CellKey) (value : Option CellValue) :
    (c.touch key value).touched.toList = c.touched.toList ∨
      (c.touch key value).touched.toList = c.touched.toList ++ [key] := by
  unfold touch
  split
  · exact Or.inl rfl
  · exact Or.inr (Array.toList_push ..)

namespace Pass

/-- A step of a pass touches the cell that it is about, or no cell. -/
def Touches (f : Pass → CellKey → Pass) : Prop :=
  ∀ p key, (f p key).changes = p.changes ∨
    ∃ value, (f p key).changes = p.changes.touch key value

theorem touches_mark : Touches mark := by
  intro p key
  unfold mark
  split
  · exact Or.inr ⟨_, rfl⟩
  · exact Or.inl rfl

theorem touches_evaluateNode (c : Condensation) : Touches (evaluateNode c) := by
  intro p key
  unfold evaluateNode
  dsimp only
  split
  · split
    · split
      · exact Or.inl rfl
      · exact Or.inr ⟨_, rfl⟩
    · exact Or.inl rfl
  · exact Or.inl rfl

/-- Steps along a list touch cells in the order of the list. -/
theorem touched_foldl {f : Pass → CellKey → Pass} (hf : Touches f) (keys : List CellKey)
    (p : Pass) : ∃ more : List CellKey, more.Sublist keys ∧
      (keys.foldl f p).changes.touched.toList = p.changes.touched.toList ++ more := by
  induction keys generalizing p with
  | nil => exact ⟨[], .slnil, (List.append_nil _).symm⟩
  | cons key keys ih =>
    obtain ⟨more, hmore, htouched⟩ := ih (f p key)
    have hsame : (f p key).changes.touched.toList = p.changes.touched.toList ∨
        (f p key).changes.touched.toList = p.changes.touched.toList ++ [key] := by
      rcases hf p key with hsame | ⟨value, htouch⟩
      · exact Or.inl (by rw [hsame])
      · rw [htouch]
        exact Changes.touched_touch ..
    rcases hsame with hsame | hpush
    · exact ⟨more, hmore.cons key, by rw [List.foldl_cons, htouched, hsame]⟩
    · refine ⟨key :: more, hmore.cons_cons key, ?_⟩
      rw [List.foldl_cons, htouched, hpush, List.append_assoc, List.singleton_append]

end Pass

namespace Workbook

variable {book : Workbook}

/-- A recalculation touches cells in evaluation order. -/
theorem touched_passFrom_nil (book : Workbook) (changes : Changes) :
    ∃ more : List CellKey, more.Sublist (book.graph.evaluationOrder book.graph.condensation) ∧
      (book.passFrom changes []).changes.touched.toList = changes.touched.toList ++ more :=
  Pass.touched_foldl (Pass.touches_evaluateNode _) _ ⟨book, changes, {}⟩

/-- After a write to `x` the cells of its cycle are touched first. -/
theorem touched_passFrom (book : Workbook) (changes : Changes) (x : CellKey) :
    ∃ cycle more : List CellKey,
      cycle.Sublist (book.graph.componentOf book.graph.condensation x) ∧
      more.Sublist (book.graph.evaluationOrder book.graph.condensation) ∧
      (book.passFrom changes [x]).changes.touched.toList =
        changes.touched.toList ++ (cycle ++ more) := by
  let c := book.graph.condensation
  let marked := Pass.markCycle c ⟨book, changes, {}⟩ x
  have hgraph : marked.book.graph = book.graph :=
    (Pass.progress_markCycle (c := c) ⟨book, changes, {}⟩ x).graph_eq
  obtain ⟨cycle, hcycle, hmarked⟩ : ∃ cycle : List CellKey,
      cycle.Sublist (book.graph.componentOf c x) ∧
      marked.changes.touched.toList = changes.touched.toList ++ cycle := by
    by_cases hx : book.graph.inCycle c x
    · obtain ⟨cycle, hcycle, htouched⟩ := Pass.touched_foldl Pass.touches_mark
        (book.graph.componentOf c x) ⟨book, changes, {}⟩
      refine ⟨cycle, hcycle, ?_⟩
      simp only [marked, Pass.markCycle, if_pos hx, htouched]
    · refine ⟨[], List.nil_sublist _, ?_⟩
      simp only [marked, Pass.markCycle, if_neg hx, List.append_nil]
  obtain ⟨more, hmore, htouched⟩ := Pass.touched_foldl (Pass.touches_evaluateNode c)
    (marked.book.graph.evaluationOrder c) marked
  rw [hgraph] at hmore
  rw [hmarked, List.append_assoc] at htouched
  exact ⟨cycle, more, hcycle, hmore, htouched⟩

/-! ## Batches -/

/-- Every cell of the batch can be named, and stands before the cells of the batch that are
    downstream of it. -/
structure CausesFirst (book : Workbook) (batch : List ChangedCell) : Prop where
  named : ∀ cell ∈ batch, ∃ key, book.named? cell.sheet cell.address = some key
  ordered : ∀ cell ∈ batch, ∀ cell' ∈ batch, ∀ u v,
    book.named? cell.sheet cell.address = some u →
    book.named? cell'.sheet cell'.address = some v →
    book.graph.Upstream u v → [cell, cell'].Sublist batch

variable {before : CellKey → Option CellValue} {changes : Changes}

/-- A batch of two cells, the one upstream of the other, lists them in this order. -/
theorem CausesFirst.eq_pair {batch : List ChangedCell} (h : CausesFirst book batch)
    (hnodup : batch.Nodup) {cell cell' : ChangedCell} {u v : CellKey}
    (hmem : ∀ c, c ∈ batch ↔ c = cell ∨ c = cell')
    (hu : book.named? cell.sheet cell.address = some u)
    (hv : book.named? cell'.sheet cell'.address = some v) (hup : book.graph.Upstream u v) :
    batch = [cell, cell'] := by
  have hsublist : [cell, cell'].Sublist batch :=
    h.ordered cell ((hmem cell).2 (Or.inl rfl)) cell' ((hmem cell').2 (Or.inr rfl)) u v hu hv hup
  have hsubset : batch ⊆ [cell, cell'] := fun c hc => by simpa using (hmem c).1 hc
  exact (hsublist.eq_of_length_le (hnodup.subperm hsubset).length_le).symm

/-- A changed cell is named as it is shown. -/
theorem named?_of_changedCell? (h : book.Indexed) {key : CellKey} (hgrid : key.position.inGrid)
    {cell : ChangedCell} (hcell : book.changedCell? key = some cell) :
    book.named? cell.sheet cell.address = some key := by
  obtain ⟨sheet, hmem, hname, rfl⟩ := (changedCell?_eq_some_iff h).1 hcell
  refine named?_eq_some_iff.2 ⟨hasSheet_iff.2 ⟨sheet, hmem, rfl⟩, key.position,
    Position.ofLocation_address hgrid, ?_⟩
  rw [CellKey.on, hname]

theorem batch_eq {a : Announcement} (ha : a ∈ book.announce changes) :
    a.batch = (changes.net book.valueAt).filterMap book.changedCell? := by
  rw [announce] at ha
  split at ha
  · exact absurd ha List.not_mem_nil
  · rw [List.mem_singleton.1 ha]

/-- In a list without an element before one that is above it, an element stands before those that it
    is above. -/
theorem pair_sublist_of_pairwise {α : Type} {above : α → α → Prop} {l : List α}
    (h : l.Pairwise fun a b => ¬ above b a) {a b : α} (ha : a ∈ l) (hb : b ∈ l) (hne : a ≠ b)
    (habove : above a b) : [a, b].Sublist l := by
  obtain ⟨front, back, rfl⟩ := List.append_of_mem ha
  rcases List.mem_append.1 hb with hfront | hrest
  · exact absurd habove ((List.pairwise_append.1 h).2.2 b hfront a List.mem_cons_self)
  · rcases List.mem_cons.1 hrest with rfl | hback
    · exact absurd rfl hne
    · exact ((List.singleton_sublist.2 hback).cons_cons a).trans (List.sublist_append_right ..)

section Announce

variable (h : book.Indexed) (ht : Tracks before book changes)
include h ht

/-- Every cell of a batch is one that has changed. -/
theorem exists_mem_net {a : Announcement} (ha : a ∈ book.announce changes) {cell : ChangedCell}
    (hcell : cell ∈ a.batch) : ∃ key ∈ changes.net book.valueAt,
      book.changedCell? key = some cell ∧ book.named? cell.sheet cell.address = some key := by
  rw [batch_eq ha] at hcell
  obtain ⟨key, hkey, hshown⟩ := List.mem_filterMap.1 hcell
  have hgrid := ht.inGrid key (List.mem_filter.1 hkey).1
  exact ⟨key, hkey, hshown, named?_of_changedCell? h hgrid hshown⟩

/-- A batch is in order if the cells that have changed are. -/
theorem causesFirst_of_pairwise
    (hpairwise : (changes.net book.valueAt).Pairwise fun u v => ¬ book.graph.Upstream v u)
    {a : Announcement} (ha : a ∈ book.announce changes) : CausesFirst book a.batch := by
  constructor
  · intro cell hcell
    obtain ⟨key, -, -, hnamed⟩ := exists_mem_net h ht ha hcell
    exact ⟨key, hnamed⟩
  · intro cell hcell cell' hcell' u v hu hv hup
    obtain ⟨u', hmem, hshown, hnamed⟩ := exists_mem_net h ht ha hcell
    obtain rfl := Option.some.inj (hnamed.symm.trans hu)
    obtain ⟨v', hmem', hshown', hnamed'⟩ := exists_mem_net h ht ha hcell'
    obtain rfl := Option.some.inj (hnamed'.symm.trans hv)
    have hne : u' ≠ v' := by
      rintro rfl
      exact hup.2 hup.1
    have hkeys := pair_sublist_of_pairwise hpairwise hmem hmem' hne hup
    have hcells := hkeys.filterMap book.changedCell?
    rw [batch_eq ha]
    simpa [hshown, hshown'] using hcells

end Announce

/-! ## Settling -/

section Settle

variable {start book' : Workbook} {announcements : List Announcement} {a : Announcement}

/-- The batch of an edit that wrote to no cell is in order. -/
theorem causesFirst_settle (h : Prepared before start book .none)
    (hsettle : book.settle .none [] = (book', announcements)) (ha : a ∈ announcements) :
    CausesFirst book' a.batch := by
  obtain ⟨hprogress, -⟩ := settle_spec h.wired .none []
  obtain ⟨more, hmore, htouched⟩ := touched_passFrom_nil book .none
  rw [settle_eq] at hsettle
  obtain ⟨rfl, rfl⟩ := Prod.mk.inj hsettle
  refine causesFirst_of_pairwise (hprogress.wired h.wired).indexed
    (h.tracks.progress h.wired hprogress) ?_ ha
  rw [hprogress.graph_eq, Changes.net, htouched]
  exact ((DependencyGraph.pairwise_evaluationOrder h.wired.graph).sublist hmore).filter _

/-- The batch of an edit that wrote to the cell `x` is in order and has `x` first, if nothing has
    changed but `x` and cells that it reaches. -/
theorem causesFirst_settle_written {x : CellKey} {value : Option CellValue}
    (h : Prepared before start book (Changes.none.touch x value))
    (hsettle : book.settle (Changes.none.touch x value) [x] = (book', announcements))
    (hdown : ∀ key, Changed before book' key → key = x ∨ TransGen book'.graph.ReadBy x key)
    (ha : a ∈ announcements) :
    CausesFirst book' a.batch ∧
      ∀ cell ∈ a.batch, book'.named? cell.sheet cell.address = some x →
        a.batch.head? = some cell := by
  obtain ⟨hprogress, -⟩ := settle_spec h.wired (Changes.none.touch x value) [x]
  obtain ⟨cycle, more, hcycle, hmore, htouched⟩ :=
    touched_passFrom book (Changes.none.touch x value) x
  have hfirst : (Changes.none.touch x value).touched.toList = [x] := by
    simp [Changes.touch, Changes.none]
  rw [hfirst, List.singleton_append] at htouched
  rw [settle_eq] at hsettle
  obtain ⟨rfl, rfl⟩ := Prod.mk.inj hsettle
  have hi := (hprogress.wired h.wired).indexed
  have ht := h.tracks.progress h.wired hprogress
  rw [← hprogress.graph_eq] at hcycle hmore
  have hgraph := (hprogress.wired h.wired).graph
  constructor
  · refine causesFirst_of_pairwise hi ht ?_ ha
    rw [Changes.net, htouched]
    apply DependencyGraph.pairwise_filter_downstream hgraph hcycle hmore
    intro key hkey hcounts
    have hchanged := ht.mem_net_iff.1 (List.mem_filter.2 ⟨htouched ▸ hkey, hcounts⟩)
    rcases hdown key hchanged with rfl | hpath
    · exact .refl
    · exact hpath.to_reflTransGen
  · intro cell hcell hnamed
    obtain ⟨key, hkey, hshown, hkeynamed⟩ := exists_mem_net hi ht ha hcell
    obtain rfl : key = x := Option.some.inj (hkeynamed.symm.trans hnamed)
    obtain ⟨-, hcounts⟩ := List.mem_filter.1 hkey
    rw [batch_eq ha, Changes.net, htouched, List.filter_cons, if_pos hcounts,
      List.filterMap_cons_some hshown, List.head?_cons]

end Settle

/-! ## Calls -/

/-- The batch of a write is in order and has the edited cell first. -/
theorem causesFirst_write (h : Valid book) {name location : String} {content : Option String}
    {o : Outcome Unit} (ho : book.write name location content = .ok o) {a : Announcement}
    (ha : a ∈ o.announcements) :
    CausesFirst o.book a.batch ∧ ∀ cell ∈ a.batch,
      o.book.named? cell.sheet cell.address = o.book.named? name location →
        a.batch.head? = some cell := by
  have h' : Valid o.book := (edited_write h ho).valid
  obtain ⟨q, hq, hagree⟩ := agreeOff_write h ho
  obtain ⟨p, b, value, hname, hp, hprepared, hsettle⟩ := exists_prepared_of_write h ho
  obtain rfl : p = q := Except.ok.inj (hp.symm.trans hq)
  have hnamed : book.named? name location = some (.on name p) :=
    named?_eq_some_iff.2 ⟨hname, p, hp, rfl⟩
  rw [named?_congr hagree.names_eq, hnamed]
  exact causesFirst_settle_written hprepared hsettle
    (fun _ => hagree.reaches_of_changed h h') ha

/-- Text that is written to a blank cell changes a formula that is a reference to it. -/
theorem changed_reference_of_write_text (h : Valid book) {name location content text : String}
    {key reader : CellKey} {r : Reference} (hkey : book.named? name location = some key)
    (hblank : book.entryAt key = .blank)
    (htext : Cell.ofContent (some content) = .literal content (.text text))
    (he : book.formulaAt reader = some (.ref r)) (hr : r.cell? reader.sheet = some key)
    {announcements : List Announcement}
    (hrun : (Command.write name location (some content)).run book = .ok (book', announcements)) :
    Changed book.valueAt book' reader ∧ book'.graph.Upstream key reader := by
  obtain ⟨o, ho, hnames, hentry⟩ := run_write h hkey (some content)
  obtain rfl : o = (book', announcements) := Except.ok.inj (ho.symm.trans hrun)
  have h' : Valid book' := (edited_run h (by simp) (by simp) hrun).valid
  obtain ⟨hname, p, -, rfl⟩ := named?_eq_some_iff.1 hkey
  have hwritten : book'.entryAt (.on name p) = .literal content (.text text) :=
    (hentry _).trans ((if_pos rfl).trans htext)
  have hformula : book.formulaAt (.on name p) = none := by
    rw [formulaAt_eq, hblank]
    rfl
  have hformula' : book'.formulaAt (.on name p) = none := by
    rw [formulaAt_eq, hwritten]
    rfl
  have hne : reader ≠ .on name p := by
    rintro rfl
    simp [hformula] at he
  have he' : book'.formulaAt reader = some (.ref r) := by
    rw [formulaAt_eq, hentry, if_neg hne, ← formulaAt_eq, he]
  obtain ⟨cell, hc, -⟩ := exists_cellAt he'
  refine ⟨⟨h'.wired.indexed.hasSheet_of_cellAt hc, ?_⟩, .single ?_,
    not_reaches_of_formulaAt h'.wired hformula' reader⟩
  · rw [valueAt_reference h he hr hname hformula,
      valueAt_reference h' he' hr ((hasSheet_congr hnames _).2 hname) hformula',
      valueAt_of_entryAt hblank rfl, valueAt_of_entryAt hwritten rfl]
    -- a blank cell is read as zero, and a text is no number
    show CellValue.agrees (some (.number 0)) (some (Scalar.text text).toCell) = false
    rw [Scalar.toCell]
    rcases ErrorKind.ofStart? text with _ | kind <;> rfl
  · exact (h'.wired.readBy_iff (by simp)).2
      ((h'.wired.mem_readsAt_iff he').2 ⟨r, List.mem_singleton_self r, hr⟩)

/-- Batches list causes before effects. After a call on a reachable workbook, other than a copy and
    a renaming, every cell of a batch stands before the cells of the batch that are downstream of it
    in the graph of now. In the batch of a write the edited cell comes first, if it is listed. -/
theorem causes_before_effects (commands : List Command) {c : Command}
    (hcopy : ∀ name, c ≠ .copySheet name) (hrename : ∀ old new, c ≠ .renameSheet old new)
    {announcements : List Announcement}
    (hrun : c.run (after commands) = .ok (book, announcements)) :
    ∀ a ∈ announcements, CausesFirst book a.batch ∧
      ∀ name location content, c = .write name location content → ∀ cell ∈ a.batch,
        book.named? cell.sheet cell.address = book.named? name location →
          a.batch.head? = some cell := by
  have h := valid_after commands
  intro a ha
  cases c with
  | write name location content =>
    obtain ⟨o, ho, heq⟩ := map_eq_ok_iff.1 hrun
    obtain ⟨rfl, rfl⟩ := Prod.mk.inj heq
    obtain ⟨hordered, hfirst⟩ := causesFirst_write h ho ha
    refine ⟨hordered, ?_⟩
    rintro _ _ _ ⟨⟩
    exact hfirst
  | addSheet name =>
    obtain ⟨o, ho, heq⟩ := map_eq_ok_iff.1 hrun
    obtain ⟨rfl, rfl⟩ := Prod.mk.inj heq
    obtain ⟨b, hprepared, hsettle⟩ := exists_prepared_of_addSheet h ho
    exact ⟨causesFirst_settle hprepared hsettle ha, fun _ _ _ heq => nomatch heq⟩
  | deleteSheet name =>
    obtain ⟨o, ho, heq⟩ := map_eq_ok_iff.1 hrun
    obtain ⟨rfl, rfl⟩ := Prod.mk.inj heq
    obtain ⟨b, hprepared, hsettle⟩ := exists_prepared_of_deleteSheet h ho
    exact ⟨causesFirst_settle hprepared hsettle ha, fun _ _ _ heq => nomatch heq⟩
  | renameSheet old new => exact absurd rfl (hrename old new)
  | copySheet name => exact absurd rfl (hcopy name)
  | moveSheet name target =>
    obtain ⟨o, ho, heq⟩ := map_eq_ok_iff.1 hrun
    obtain ⟨rfl, rfl⟩ := Prod.mk.inj heq
    obtain ⟨i, sheet, -, -, -, rfl⟩ := (moveSheet_eq_ok_iff h.wired.indexed).1 ho
    exact absurd ha List.not_mem_nil
  | listen listener =>
    obtain ⟨-, rfl⟩ := Prod.mk.inj (Except.ok.inj hrun)
    exact absurd ha List.not_mem_nil

/-- A text is typed under a formula that reads it, and stands before the formula in the batch. -/
theorem causes_before_effects_write :
    let commands : List Command := [.addSheet (some "A"), .write "A" "B1" (some "=A1")]
    ∃ (book : Workbook) (announcements : List Announcement),
      (Command.write "A" "A1" (some "x")).run (after commands) = .ok (book, announcements) ∧
      book.graph.Upstream (.on "A" ⟨0, 0⟩) (.on "A" ⟨0, 1⟩) ∧
      ∃ a ∈ announcements, CausesFirst book a.batch ∧ a.batch = [⟨"A", "A1"⟩, ⟨"A", "B1"⟩] := by
  intro commands
  have h := valid_after commands
  have hallowed : nameFault? "A" = none := rfl
  have hfirst : Position.ofLocation "A1" = .ok ⟨0, 0⟩ := rfl
  have hsecond : Position.ofLocation "B1" = .ok ⟨0, 1⟩ := rfl
  obtain ⟨hnames, hentry⟩ := entries_first_write hallowed hsecond (some "=A1")
  have hnamed := named?_of_names hnames hfirst
  have hblank : (after commands).entryAt (.on "A" ⟨0, 0⟩) = .blank :=
    (hentry _).trans (if_neg (by decide))
  have hformula : (after commands).formulaAt (.on "A" ⟨0, 1⟩) = some (.ref ⟨none, "A1"⟩) := by
    rw [formulaAt_eq, hentry, if_pos rfl]
    with_unfolding_all rfl
  have htext : Cell.ofContent (some "x") = .literal "x" (.text "x") := by with_unfolding_all rfl
  obtain ⟨⟨book, announcements⟩, hrun, hkept, hwritten⟩ := run_write h hnamed (some "x")
  have hcause : Changed (after commands).valueAt book (.on "A" ⟨0, 0⟩) :=
    changed_of_write_text h hnamed hblank htext hrun
  obtain ⟨heffect, hup⟩ : Changed (after commands).valueAt book (.on "A" ⟨0, 1⟩) ∧ _ :=
    changed_reference_of_write_text h hnamed hblank htext hformula rfl hrun
  -- the other cells are blank before and after
  have honly (p : Position) (hp : Changed (after commands).valueAt book (.on "A" p)) :
      p = ⟨0, 0⟩ ∨ p = ⟨0, 1⟩ := by
    by_contra hother
    obtain ⟨hne, hne'⟩ := not_or.1 hother
    have hsame : book.entryAt (.on "A" p) = (after commands).entryAt (.on "A" p) :=
      (hwritten _).trans (if_neg (by simpa [CellKey.on] using hne))
    refine not_changed_of_entryAt hsame ?_ hp
    rw [formulaAt_eq, hentry, if_neg (by simpa [CellKey.on] using hne')]
    rfl
  obtain ⟨hnone, -⟩ | ⟨-, batch, hbatch, rfl⟩ :
      Announced (after commands).valueAt book announcements :=
    (edited_run h (by simp) (by simp) hrun).announced
  · exact absurd hcause (hnone _)
  · have hsheet := hkept.trans hnames
    obtain ⟨hordered, -⟩ := causes_before_effects commands (by simp) (by simp) hrun
      ⟨batch, book⟩ List.mem_cons_self
    refine ⟨book, _, hrun, hup, _, List.mem_cons_self, hordered, ?_⟩
    refine hordered.eq_pair hbatch.nodup (fun cell => ?_) (named?_of_names hsheet hfirst)
      (named?_of_names hsheet hsecond) hup
    have haddress : Position.address ⟨0, 0⟩ = "A1" := by
      rw [Position.address, columnLetters]
      rfl
    have haddress' : Position.address ⟨0, 1⟩ = "B1" := by
      rw [Position.address, columnLetters]
      rfl
    rw [hbatch.mem_iff_of_names hsheet]
    constructor
    · rintro ⟨p, hp, rfl⟩
      rcases honly p hp with rfl | rfl
      · exact Or.inl (by rw [haddress])
      · exact Or.inr (by rw [haddress'])
    · rintro (rfl | rfl)
      · exact ⟨_, hcause, by rw [haddress]⟩
      · exact ⟨_, heffect, by rw [haddress']⟩

end Workbook

end Spreadsheet
