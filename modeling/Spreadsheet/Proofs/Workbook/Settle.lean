import Spreadsheet.Proofs.Graph.Cycles
import Spreadsheet.Proofs.Workbook.Links

/-!
# Recalculation makes every formula current

The formulas are evaluated one after the other. A formula on no cycle comes after everything that it
reads, so nothing that it reads changes after it; a formula on a cycle does not depend on values.

Results:
* `Progress` is all that a pass does to a workbook: it makes places for nodes and gives values to
  formulas. `Progress.agrees` and `Progress.wired` are what it keeps.
* `Current`: the value of a formula is the circular error if it lies on a cycle, and what the
  formula amounts to otherwise.
* `formulaValue_eq`: the short ways of evaluating a single reference change nothing.
* `settle_spec`: after a pass every formula is current and every node of a sheet has a place.
-/

namespace Spreadsheet

open Formula (Expr Scalar)

namespace Workbook

/-! ## What a pass does -/

/-- The steps of a pass: a node gets a place, or a formula gets a value after its value before has
    been noted. -/
inductive Progress (book : Workbook) (changes : Changes) : Workbook → Changes → Prop
  | refl : Progress book changes book changes
  | ensure {b : Workbook} {c : Changes} {key : CellKey} {i : Nat} (h : Progress book changes b c)
      (hi : b.registry[key.sheet]? = some i) (hkey : key ∈ b.graph.keys) :
      Progress book changes (b.modifySheet i (·.ensure key.position)) c
  | assign {b : Workbook} {c : Changes} {key : CellKey} {i : Nat} {e : Expr} {value : CellValue}
      (h : Progress book changes b c) (hi : b.registry[key.sheet]? = some i)
      (he : b.formulaAt key = some e) :
      Progress book changes (b.modifySheet i (·.evaluated key.position value))
        (c.touch key (b.valueAt key))

namespace Progress

variable {book b b' : Workbook} {changes c c' : Changes}

theorem trans (h : Progress book changes b c) (h' : Progress b c b' c') :
    Progress book changes b' c' := by
  induction h' with
  | refl => exact h
  | ensure _ hi hkey ih => exact ih.ensure hi hkey
  | assign _ hi he ih => exact ih.assign hi he

theorem graph_eq (h : Progress book changes b c) : b.graph = book.graph := by
  induction h with
  | refl => rfl
  | ensure _ _ _ ih => exact ih
  | assign _ _ _ ih => exact ih

theorem agrees (h : Progress book changes b c) (hb : book.Indexed) : Agrees book b := by
  induction h with
  | refl => exact .refl book
  | ensure _ hi _ ih => exact ih.trans (agrees_ensure (ih.indexed hb) hi _)
  | assign _ hi he ih => exact ih.trans (agrees_evaluated (ih.indexed hb) hi he _)

theorem node {off : CellKey → Prop} (h : Progress book changes b c) (hw : WiredOff off book)
    (key : CellKey) (hkey : (b.cellAt key).isSome) : key ∈ book.graph.keys := by
  induction h generalizing key with
  | refl => exact hw.node key hkey
  | ensure hp hi hmem ih =>
    rcases (isSome_cellAt_ensure ((hp.agrees hw.indexed).indexed hw.indexed) hi _ key).1 hkey with
      rfl | hkey
    · exact hp.graph_eq ▸ hmem
    · exact ih key hkey
  | assign hp hi _ ih =>
    apply ih key
    rw [(cellEdit_evaluated _ _).cellAt ((hp.agrees hw.indexed).indexed hw.indexed) hi] at hkey
    split at hkey
    · rename_i heq
      rw [heq]
      rwa [Option.isSome_map] at hkey
    · exact hkey

theorem wired {off : CellKey → Prop} (h : Progress book changes b c) (hw : WiredOff off book) :
    WiredOff off b :=
  hw.of_agrees (h.agrees hw.indexed) h.graph_eq (h.node hw)

end Progress

end Workbook

namespace Pass

open Workbook

variable {c : Condensation} {p : Pass} {off : CellKey → Prop}

theorem progress_mark (key : CellKey) :
    Progress p.book p.changes (p.mark key).book (p.mark key).changes := by
  unfold mark
  split
  · rename_i hi he
    exact Progress.refl.assign hi he
  · exact .refl

theorem progress_foldl {f : Pass → CellKey → Pass}
    (hf : ∀ p key, Progress p.book p.changes (f p key).book (f p key).changes)
    (keys : List CellKey) (p : Pass) :
    Progress p.book p.changes (keys.foldl f p).book (keys.foldl f p).changes := by
  induction keys generalizing p with
  | nil => exact .refl
  | cons key keys ih => exact (hf p key).trans (ih _)

theorem progress_markCycle (p : Pass) (key : CellKey) :
    Progress p.book p.changes (markCycle c p key).book (markCycle c p key).changes := by
  unfold markCycle
  split
  · exact progress_foldl (fun _ _ => progress_mark _) _ p
  · exact .refl

/-- The three ways to evaluate a node: it has no sheet, no formula, or gets a value. -/
theorem evaluateNode_cases (hw : WiredOff off p.book) {key : CellKey}
    (hkey : key ∈ p.book.graph.keys) :
    (¬ p.book.HasSheet key.sheet ∧ (evaluateNode c p key).book = p.book ∧
      (evaluateNode c p key).changes = p.changes) ∨
    ∃ i b, p.book.registry[key.sheet]? = some i ∧
      b = p.book.modifySheet i (·.ensure key.position) ∧
      ((b.formulaAt key = none ∧ (evaluateNode c p key).book = b ∧
          (evaluateNode c p key).changes = p.changes) ∨
        ∃ e, b.formulaAt key = some e ∧
          (evaluateNode c p key).book = b.modifySheet i (·.evaluated key.position
            (if b.graph.inCycle c key then circular else b.formulaValue i key e)) ∧
          (evaluateNode c p key).changes = p.changes.touch key (b.valueAt key)) := by
  unfold evaluateNode
  dsimp only
  split
  · rename_i i hi
    rw [if_pos (hw.inGrid key hkey)]
    refine Or.inr ⟨i, _, hi, rfl, ?_⟩
    split
    · rename_i hnone
      exact Or.inl ⟨hnone, rfl, rfl⟩
    · rename_i e he
      exact Or.inr ⟨e, he, rfl, rfl⟩
  · rename_i hnone
    refine Or.inl ⟨?_, rfl, rfl⟩
    intro hsheet
    obtain ⟨i, hi⟩ := hw.indexed.hasSheet_iff_registry.1 hsheet
    rw [hnone] at hi
    simp at hi

theorem progress_evaluateNode (hw : WiredOff off p.book) {key : CellKey}
    (hkey : key ∈ p.book.graph.keys) :
    Progress p.book p.changes (evaluateNode c p key).book (evaluateNode c p key).changes := by
  obtain ⟨-, hbook, hchanges⟩ | ⟨i, b, hi, rfl, hcase⟩ := evaluateNode_cases (c := c) hw hkey
  · rw [hbook, hchanges]
    exact .refl
  · have hensure : Progress p.book p.changes _ p.changes := Progress.refl.ensure hi hkey
    obtain ⟨-, hbook, hchanges⟩ | ⟨e, he, hbook, hchanges⟩ := hcase
    · rw [hbook, hchanges]
      exact hensure
    · rw [hbook, hchanges]
      exact hensure.assign hi he

end Pass

namespace Workbook

variable {book : Workbook} {off : CellKey → Prop}

/-! ## Current formulas -/

/-- The formula at the key has the value that it should have: the circular error on a cycle, and
    what it amounts to otherwise. -/
def Current (book : Workbook) (key : CellKey) : Prop :=
  ∀ e, book.formulaAt key = some e →
    (book.graph.OnCycle key → book.valueAt key = some circular) ∧
      (¬ book.graph.OnCycle key → book.valueAt key = some (e.value (book.view key.sheet)))

theorem lookup_eq (h : book.Indexed) {key : CellKey} {i : Nat}
    (hi : book.registry[key.sheet]? = some i) : book.lookup i = book.view key.sheet := by
  obtain ⟨sheet, hs, hname⟩ := (h _ i).1 hi
  rw [lookup_eq_view h hs, hname]

/-- A cell without content has no value. -/
theorem valueAt_eq_none (hw : WiredOff off book) {key : CellKey} {sheet : Sheet}
    (hs : book.sheetOf? key = some sheet) (hcontent : sheet.hasContent key.position = false) :
    book.valueAt key = none := by
  obtain ⟨hmem, hname⟩ := hw.indexed.sheetOf?_eq_some_iff.1 hs
  rw [valueAt, hw.indexed.cellAt_eq hmem hname]
  rw [Sheet.hasContent, Sheet.content?] at hcontent
  rcases hc : sheet.cell? key.position with _ | cell
  · rfl
  · rw [hc, Option.bind_some] at hcontent
    have hblank := ((hw.sound sheet hmem).canonical _ _ hc).eq_blank
      (by simpa using hcontent)
    rw [hblank]
    rfl

/-- The short ways of evaluating a formula that is a single reference give its value. -/
theorem formulaValue_eq (hw : WiredOff off book) {key : CellKey} (hkey : ¬ off key) {i : Nat}
    (hi : book.registry[key.sheet]? = some i) {e : Expr} (he : book.formulaAt key = some e)
    (hcycle : ¬ book.graph.OnCycle key) :
    book.formulaValue i key e = e.value (book.lookup i) := by
  have hhome : book.HasSheet key.sheet := hw.indexed.hasSheet_iff_registry.2 ⟨i, hi⟩
  rw [formulaValue]
  suffices hshort : ∀ value, book.aliasValue? key e = some value →
      value = e.value (book.lookup i) by
    rcases ha : book.aliasValue? key e with _ | value
    · rfl
    · exact hshort value ha
  intro value ha
  unfold aliasValue? at ha
  split at ha
  · rename_i r
    split at ha
    · simp at ha
    · rename_i source hsource
      rw [resolve_target (upper_of_hasSheet hhome)
        ((hw.parsed he).isShape (List.mem_singleton_self r))] at hsource
      split at ha
      · -- a reference to the cell itself is a cycle
        rename_i heq
        rw [heq] at hsource
        have hread := (hw.mem_readsAt_iff he).2 ⟨r, List.mem_singleton_self r, hsource⟩
        exact absurd (.single ((hw.readBy_iff hkey).2 hread)) hcycle
      · split at ha
        · simp at ha
        · rename_i sheet hs
          split at ha
          · simp at ha
          · rename_i hcontent
            have hsheet : book.HasSheet source.sheet := by
              obtain ⟨hmem, hname⟩ := hw.indexed.sheetOf?_eq_some_iff.1 hs
              exact hasSheet_iff.2 ⟨sheet, hmem, hname⟩
            rw [← Option.some.inj ha, lookup_eq hw.indexed hi, Expr.value, Expr.scalar,
              read_view hhome, hsource]
            simp only [hsheet, if_true]
            rw [valueAt_eq_none hw hs (Bool.eq_false_iff.2 hcontent)]
            rfl
  · simp at ha

/-! ## One node -/

theorem valueAt_evaluated (h : book.Indexed) {key : CellKey} {i : Nat}
    (hi : book.registry[key.sheet]? = some i) {e : Expr} (he : book.formulaAt key = some e)
    (value : CellValue) (k : CellKey) :
    (book.modifySheet i (·.evaluated key.position value)).valueAt k =
      if k = key then some value else book.valueAt k := by
  obtain ⟨cell, hc, hcell⟩ := exists_cellAt he
  rw [valueAt, (cellEdit_evaluated key.position value).cellAt h hi]
  by_cases hk : k = key
  · rw [if_pos hk, if_pos hk, hc, Option.map_some, Option.bind_some]
    exact Cell.value?_evaluated hcell value
  · rw [if_neg hk, if_neg hk]
    rfl

/-- The node has been dealt with: it has a place if its sheet exists, and its formula is current. -/
def Settled (book : Workbook) (key : CellKey) : Prop :=
  (book.HasSheet key.sheet → (book.cellAt key).isSome) ∧ book.Current key

variable {book' : Workbook}

/-- A formula stays current if no cell that it reads gets another value. -/
theorem Settled.congr (hw : WiredOff off book) {key : CellKey}
    (h : book.Settled key) (ha : Agrees book book') (hgraph : book'.graph = book.graph)
    (hself : book'.valueAt key = book.valueAt key)
    (hreads : ¬ book.graph.OnCycle key →
      ∀ source ∈ book.readsAt key, book'.valueAt source = book.valueAt source) :
    book'.Settled key := by
  refine ⟨fun hsheet => ha.stored key (h.1 (ha.hasSheet_iff.1 hsheet)), ?_⟩
  intro e he
  rw [ha.formulaAt_eq] at he
  obtain ⟨hcirc, hvalue⟩ := h.2 e he
  rw [hgraph, hself]
  refine ⟨hcirc, fun hcycle => ?_⟩
  obtain ⟨cell, hc, -⟩ := exists_cellAt he
  have hsheets : ∀ name, book.HasSheet name ↔ book'.HasSheet name := fun _ => ha.hasSheet_iff.symm
  rw [hvalue hcycle, value_congr hsheets (hw.indexed.hasSheet_of_cellAt hc)]
  intro r hr source hsource
  exact (hreads hcycle source ((hw.mem_readsAt_iff he).2 ⟨r, hr, hsource⟩)).symm

section Evaluated

variable (hw : Wired book) {key : CellKey} {i : Nat} (hi : book.registry[key.sheet]? = some i)
  {e : Expr} (he : book.formulaAt key = some e) {value : CellValue}
include hw hi he

/-- A formula is current when it has been given the value that it should have. -/
theorem settled_evaluated (hcircular : book.graph.OnCycle key → value = circular)
    (hexact : ¬ book.graph.OnCycle key → value = book.formulaValue i key e) :
    (book.modifySheet i (·.evaluated key.position value)).Settled key := by
  have hset := valueAt_evaluated hw.indexed hi he value
  have hagrees := agrees_evaluated hw.indexed hi he value
  obtain ⟨cell, hc, -⟩ := exists_cellAt he
  refine ⟨fun _ => hagrees.stored key (by rw [hc]; rfl), ?_⟩
  intro e' he'
  rw [hagrees.formulaAt_eq, he] at he'
  obtain rfl := Option.some.inj he'
  have hhome : book.HasSheet key.sheet := hw.indexed.hasSheet_iff_registry.2 ⟨i, hi⟩
  rw [hset, if_pos rfl]
  refine ⟨fun hcycle => congrArg some (hcircular hcycle), fun hcycle => congrArg some ?_⟩
  refine (hexact hcycle).trans ?_
  rw [formulaValue_eq hw (by simp) hi he hcycle, lookup_eq hw.indexed hi,
    value_congr (fun _ => hagrees.hasSheet_iff.symm) hhome]
  -- the formula does not read the cell that gets the value, which would be a cycle
  intro r hr source hsource
  rw [hset, if_neg]
  rintro rfl
  exact hcycle (.single ((hw.readBy_iff (by simp)).2 ((hw.mem_readsAt_iff he).2 ⟨r, hr, hsource⟩)))

/-- Other formulas stay current if they do not read the cell. -/
theorem Settled.evaluated {k : CellKey} (h : book.Settled k) (hne : k ≠ key)
    (hreads : ¬ book.graph.OnCycle k → key ∉ book.readsAt k) :
    (book.modifySheet i (·.evaluated key.position value)).Settled k := by
  have hset := valueAt_evaluated hw.indexed hi he value
  refine h.congr hw (agrees_evaluated hw.indexed hi he value) rfl
    (by rw [hset, if_neg hne]) ?_
  intro hcycle source hsource
  rw [hset, if_neg]
  rintro rfl
  exact hreads hcycle hsource

end Evaluated

/-- A node before another one in the evaluation order does not read it, unless it is on a cycle. -/
theorem not_mem_readsAt (hw : Wired book) {pre post : List CellKey} {key : CellKey}
    (horder : book.graph.evaluationOrder book.graph.condensation = pre ++ key :: post)
    {k : CellKey} (hk : k ∈ pre) (hcycle : ¬ book.graph.OnCycle k) : key ∉ book.readsAt k := by
  intro hread
  have hnodup := DependencyGraph.evaluationOrder_nodup hw.graph
  rw [horder] at hnodup
  obtain ⟨first, second, rfl⟩ := List.append_of_mem hk
  rw [List.append_assoc, List.cons_append] at horder
  have hmem := DependencyGraph.mem_before hw.graph horder hcycle
    ((hw.readBy_iff (by simp)).2 hread)
  exact (List.nodup_append.1 hnodup).2.2 key (List.mem_append_left _ hmem) key List.mem_cons_self
    rfl

end Workbook

namespace Pass

open Workbook

variable {p : Pass}

/-- Evaluating the next node settles it and keeps those before it settled. -/
theorem settled_evaluateNode (hw : Wired p.book) {pre post : List CellKey} {key : CellKey}
    (horder : p.book.graph.evaluationOrder p.book.graph.condensation = pre ++ key :: post)
    (hpre : ∀ k ∈ pre, p.book.Settled k) :
    ∀ k ∈ pre ++ [key],
      (evaluateNode p.book.graph.condensation p key).book.Settled k := by
  have hnodup := DependencyGraph.evaluationOrder_nodup hw.graph
  have hkey : key ∈ p.book.graph.keys := by
    rw [← DependencyGraph.mem_evaluationOrder hw.graph, horder]
    simp
  have hfresh : key ∉ pre := by
    rw [horder] at hnodup
    intro hmem
    exact (List.nodup_append.1 hnodup).2.2 key hmem key List.mem_cons_self rfl
  obtain ⟨hsheet, hbook, -⟩ | ⟨i, b, hi, hb, hcase⟩ := evaluateNode_cases
    (c := p.book.graph.condensation) hw hkey
  · intro k hk
    rw [hbook]
    rcases List.mem_append.1 hk with hk | hk
    · exact hpre k hk
    · rw [List.mem_singleton.1 hk]
      refine ⟨fun h => absurd h hsheet, fun e he => ?_⟩
      obtain ⟨cell, hc, -⟩ := exists_cellAt he
      exact absurd (hw.indexed.hasSheet_of_cellAt hc) hsheet
  · have hprogress : Progress p.book p.changes b p.changes := hb ▸ Progress.refl.ensure hi hkey
    have hagrees := hprogress.agrees hw.indexed
    have hgraph := hprogress.graph_eq
    have hwired := hprogress.wired hw
    have hvalues : ∀ k, b.valueAt k = p.book.valueAt k := by
      intro k
      rw [hb]
      exact valueAt_ensure hw.indexed hi _ k
    have hold : ∀ k ∈ pre, b.Settled k := fun k hk =>
      (hpre k hk).congr hw hagrees hgraph (hvalues k) fun _ source _ => hvalues source
    obtain ⟨hnone, hbook, -⟩ | ⟨e, he, hbook, -⟩ := hcase
    · intro k hk
      rw [hbook]
      rcases List.mem_append.1 hk with hk | hk
      · exact hold k hk
      · rw [List.mem_singleton.1 hk]
        refine ⟨fun _ => ?_, fun e he => ?_⟩
        · rw [hb]
          exact (isSome_cellAt_ensure hw.indexed hi _ key).2 (Or.inl rfl)
        · rw [hnone] at he
          simp at he
    · have hi' : b.registry[key.sheet]? = some i := hagrees.registry_eq ▸ hi
      rw [← hgraph] at hbook horder ⊢
      have hcycle : b.graph.inCycle b.graph.condensation key ↔ b.graph.OnCycle key :=
        DependencyGraph.inCycle_iff hwired.graph
      intro k hk
      rw [hbook]
      rcases List.mem_append.1 hk with hk | hk
      · exact (hold k hk).evaluated hwired hi' he (fun heq => hfresh (heq ▸ hk))
          (not_mem_readsAt hwired horder hk)
      · rw [List.mem_singleton.1 hk]
        exact settled_evaluated hwired hi' he (fun h => if_pos (hcycle.2 h))
          fun h => if_neg (mt hcycle.1 h)

/-- The rest of the evaluation order settles all nodes. -/
theorem settled_foldl (hw : Wired p.book) {pre post : List CellKey}
    (horder : p.book.graph.evaluationOrder p.book.graph.condensation = pre ++ post)
    (hpre : ∀ k ∈ pre, p.book.Settled k) :
    ∀ k ∈ pre ++ post,
      (post.foldl (evaluateNode p.book.graph.condensation) p).book.Settled k := by
  induction post generalizing pre p with
  | nil =>
    rw [List.append_nil]
    exact hpre
  | cons key post ih =>
    have hkey : key ∈ p.book.graph.keys := by
      rw [← DependencyGraph.mem_evaluationOrder hw.graph, horder]
      simp
    have hprogress := progress_evaluateNode (c := p.book.graph.condensation) hw hkey
    have hgraph := hprogress.graph_eq
    have hstep := settled_evaluateNode hw horder hpre
    have horder' : (evaluateNode p.book.graph.condensation p key).book.graph.evaluationOrder
        (evaluateNode p.book.graph.condensation p key).book.graph.condensation =
          (pre ++ [key]) ++ post := by
      rw [hgraph, horder, List.append_assoc]
      rfl
    have hrest := ih (hprogress.wired hw) horder' hstep
    rw [hgraph, List.append_assoc] at hrest
    exact hrest

theorem progress_recalculate (hw : Wired p.book) :
    Progress p.book p.changes (p.recalculate p.book.graph.condensation).book
      (p.recalculate p.book.graph.condensation).changes := by
  have hloop : ∀ (keys : List CellKey) (q : Pass), Wired q.book →
      (∀ key ∈ keys, key ∈ q.book.graph.keys) →
      Progress q.book q.changes
        (keys.foldl (evaluateNode p.book.graph.condensation) q).book
        (keys.foldl (evaluateNode p.book.graph.condensation) q).changes := by
    intro keys
    induction keys with
    | nil => exact fun _ _ _ => .refl
    | cons key keys ih =>
      intro q hq hkeys
      have hstep := progress_evaluateNode (c := p.book.graph.condensation) hq
        (hkeys key List.mem_cons_self)
      refine hstep.trans (ih _ (hstep.wired hq) fun k hk => ?_)
      rw [hstep.graph_eq]
      exact hkeys k (List.mem_cons_of_mem _ hk)
  exact hloop _ p hw fun key hkey => (DependencyGraph.mem_evaluationOrder hw.graph).1 hkey

end Pass

namespace Workbook

/-! ## A whole pass -/

/-- The workbook and the changes after a pass that marks cycles through some cells first. -/
def passFrom (book : Workbook) (changes : Changes) (written : List CellKey) : Pass :=
  Pass.recalculate book.graph.condensation
    (written.foldl (Pass.markCycle book.graph.condensation) ⟨book, changes, {}⟩)

variable {book : Workbook}

theorem settle_eq (book : Workbook) (changes : Changes) (written : List CellKey) :
    book.settle changes written =
      ((book.passFrom changes written).book,
        (book.passFrom changes written).book.announce (book.passFrom changes written).changes) :=
  rfl

/-- After a pass every node is settled, and the pass has done nothing but what passes do. -/
theorem settle_spec (hw : Wired book) (changes : Changes) (written : List CellKey) :
    Progress book changes (book.passFrom changes written).book
        (book.passFrom changes written).changes ∧
      ∀ key ∈ book.graph.keys, (book.passFrom changes written).book.Settled key := by
  let p : Pass := written.foldl (Pass.markCycle book.graph.condensation) ⟨book, changes, {}⟩
  have hmark : Progress book changes p.book p.changes :=
    Pass.progress_foldl (fun q key => Pass.progress_markCycle q key) written ⟨book, changes, {}⟩
  have hp := hmark.wired hw
  have hpass : book.passFrom changes written = p.recalculate p.book.graph.condensation := by
    rw [hmark.graph_eq]
    rfl
  rw [hpass]
  refine ⟨hmark.trans (Pass.progress_recalculate hp), fun key hkey => ?_⟩
  have hstart : ∀ k ∈ ([] : List CellKey), p.book.Settled k := by simp
  apply Pass.settled_foldl hp rfl hstart
  rw [List.nil_append, hmark.graph_eq]
  exact (DependencyGraph.mem_evaluationOrder hw.graph).2 hkey

end Workbook

end Spreadsheet
