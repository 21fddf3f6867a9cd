import Spreadsheet.Graph.Cached
import Spreadsheet.Proofs.Graph.Bounds

/-!
# What is kept of a graph is up to date

The condensation of a graph is kept until an edit changes the graph. So whatever was asked and
edited before, an answer is about the graph as it is now, and the graph is the plain list of nodes
with their readers that the edits make.

Results:
* `CachedGraph.edit_cases`: an edit drops the condensation or leaves the graph as it is.
* `Fresh`: the condensation that is kept is that of the graph. Every call keeps it so.
* `refines_after`: after any calls a graph shows what its list shows, everything that is looked up
  is there, and every answer is about the graph as it is.
-/

namespace Spreadsheet

namespace DependencyGraph

variable {g : DependencyGraph}

/-! ## Edits that change nothing -/

theorem add_eq_self {key : CellKey} (h : g.contains key) : g.add key = g := by
  obtain ⟨id, hid⟩ := contains_iff_slot.1 h
  rw [add, slotOf, hid]

theorem disconnect_eq_self_of_contains {reader : CellKey} (h : ¬ g.contains reader) :
    g.disconnect reader = g := by
  rcases hr : g.slots[reader]? with _ | r
  · exact disconnect_eq_self hr
  · exact absurd (contains_iff_slot.2 ⟨r, hr⟩) h

theorem disconnectWhere_eq_self {p : CellKey → Bool} (h : ¬ g.keys.any p) :
    g.disconnectWhere p = g := by
  have hkept (r : Nat) : (g.nodes[r]?.map p).getD false = false := by
    rcases hr : g.nodes[r]? with _ | key
    · rfl
    · have hmem : key ∈ g.keys := mem_keys_iff.2 ⟨r, hr⟩
      simpa using fun hp => h (List.any_eq_true.2 ⟨key, hmem, hp⟩)
  simp [disconnectWhere, hkept]

end DependencyGraph

/-! ## Calls -/

namespace CachedGraph

variable {g : CachedGraph}

/-- What an edit makes of a graph. -/
def edit (g : CachedGraph) : GraphEdit → CachedGraph
  | .add key => (g.add key).2
  | .connect source reader => g.connect source reader
  | .disconnect reader => g.disconnect reader
  | .disconnectWhere p => g.disconnectWhere p
  | .rename source target => (g.rename source target).2

/-- A call on a graph: an edit, or a question about components or order. -/
inductive Call : Type 1 where
  | edit (e : GraphEdit)
  | ask {α : Type} (question : DependencyGraph → Condensation → α)
  | askAt {α : Type} (key : CellKey) (question : DependencyGraph → Condensation → CellKey → α)

/-- What a call makes of a graph. -/
def Call.apply (g : CachedGraph) : Call → CachedGraph
  | .edit e => g.edit e
  | .ask question => (g.ask question).2
  | .askAt key question => (g.askAt key question).2

/-- The edit that a call makes. -/
def Call.edit? : Call → Option GraphEdit
  | .edit e => some e
  | _ => none

/-- The graph after the calls on the one without nodes. -/
def after (calls : List Call) : CachedGraph :=
  calls.foldl Call.apply ∅

/-! ## What is kept -/

/-- An edit drops the condensation, or it leaves the graph as it is. -/
theorem edit_cases (g : CachedGraph) (edit : GraphEdit) :
    (g.edit edit = g ∧ edit.apply g.graph = g.graph) ∨
      g.edit edit = ⟨edit.apply g.graph, none⟩ := by
  cases edit with
  | add key =>
    by_cases hkey : g.graph.contains key
    · exact Or.inl ⟨by simp [CachedGraph.edit, add, hkey], DependencyGraph.add_eq_self hkey⟩
    · exact Or.inr (by simp [CachedGraph.edit, add, hkey, GraphEdit.apply])
  | connect source reader => exact Or.inr rfl
  | disconnect reader =>
    by_cases hkey : g.graph.contains reader
    · exact Or.inr (by simp [CachedGraph.edit, disconnect, hkey, GraphEdit.apply])
    · exact Or.inl ⟨by simp [CachedGraph.edit, disconnect, hkey],
        DependencyGraph.disconnect_eq_self_of_contains hkey⟩
  | disconnectWhere p =>
    by_cases hany : g.graph.keys.any p
    · exact Or.inr (by simp [CachedGraph.edit, disconnectWhere, hany, GraphEdit.apply])
    · exact Or.inl ⟨by simp [CachedGraph.edit, disconnectWhere, hany],
        DependencyGraph.disconnectWhere_eq_self hany⟩
  | rename source target =>
    by_cases hboth : g.graph.contains source ∧ source ≠ target
    · exact Or.inr (by simp [CachedGraph.edit, rename, hboth, GraphEdit.apply])
    · have hsame : g.graph.contains source → source = target := fun hs =>
        by_contra fun hne => hboth ⟨hs, hne⟩
      refine Or.inl ⟨?_, DependencyGraph.rename_eq_self hsame⟩
      by_cases hs : g.graph.contains source
      · obtain rfl := hsame hs
        simp [CachedGraph.edit, rename, hs]
      · simp [CachedGraph.edit, rename, hs]

/-- The condensation that is kept is that of the graph as it is. -/
def Fresh (g : CachedGraph) : Prop :=
  ∀ c, g.cache = some c → c = g.graph.condensation

theorem fresh_of_none (h : g.cache = none) : g.Fresh := by
  intro c hc
  rw [h] at hc
  exact absurd hc (by simp)

theorem graph_edit (g : CachedGraph) (edit : GraphEdit) :
    (g.edit edit).graph = edit.apply g.graph := by
  obtain ⟨hsame, hgraph⟩ | hdropped := g.edit_cases edit
  · rw [hsame, hgraph]
  · rw [hdropped]

theorem graph_condense (g : CachedGraph) : g.condense.2.graph = g.graph := by
  rw [condense]
  split
  · rfl
  · rfl

theorem graph_apply (g : CachedGraph) (call : Call) :
    (call.apply g).graph = (call.edit?).elim g.graph (GraphEdit.apply g.graph) := by
  cases call with
  | edit e => exact g.graph_edit e
  | ask question => exact g.graph_condense
  | askAt key question =>
    rw [Call.apply, askAt]
    split
    · exact g.graph_condense
    · rfl

namespace Fresh

variable (h : g.Fresh)
include h

theorem edit (edit : GraphEdit) : (g.edit edit).Fresh := by
  obtain ⟨hsame, -⟩ | hdropped := g.edit_cases edit
  · rwa [hsame]
  · rw [hdropped]
    exact fresh_of_none rfl

theorem condense_eq : g.condense.1 = g.graph.condensation := by
  rw [condense]
  split
  · exact h _ ‹_›
  · rfl

theorem condense : g.condense.2.Fresh := by
  rw [CachedGraph.condense]
  split
  · exact h
  · exact fun c hc => (Option.some.inj hc).symm

/-- An answer is about the graph as it is. -/
theorem ask_eq {α : Type} (question : DependencyGraph → Condensation → α) :
    (g.ask question).1 = question g.graph g.graph.condensation := by
  have hanswer : (g.ask question).1 = question g.condense.2.graph g.condense.1 := rfl
  rw [hanswer, graph_condense, h.condense_eq]

theorem askAt_eq {α : Type} (key : CellKey)
    (question : DependencyGraph → Condensation → CellKey → α) :
    (g.askAt key question).1 =
      if g.graph.contains key then some (question g.graph g.graph.condensation key) else none := by
  rw [askAt]
  split
  · exact congrArg some (h.ask_eq (question · · key))
  · rfl

theorem apply (call : Call) : (call.apply g).Fresh := by
  cases call with
  | edit e => exact h.edit e
  | ask question => exact h.condense
  | askAt key question =>
    rw [Call.apply, askAt]
    split
    · exact h.condense
    · exact h

end Fresh

/-! ## Many calls -/

theorem fresh_after (calls : List Call) : (after calls).Fresh :=
  List.foldlRecOn calls Call.apply (motive := Fresh) (fresh_of_none rfl)
    fun _ h call _ => h.apply call

theorem graph_foldl_apply (g : CachedGraph) (calls : List Call) :
    (calls.foldl Call.apply g).graph =
      (calls.filterMap Call.edit?).foldl GraphEdit.apply g.graph := by
  induction calls generalizing g with
  | nil => rfl
  | cons call calls ih =>
    rw [List.foldl_cons, ih, graph_apply, List.filterMap_cons]
    rcases call.edit? with _ | edit <;> rfl

/-- Questions leave no trace in the graph. -/
theorem graph_after (calls : List Call) :
    (after calls).graph = DependencyGraph.after (calls.filterMap Call.edit?) :=
  graph_foldl_apply ∅ calls

/-- A graph shows what a list of nodes with their readers shows, everything that is looked up in it
    is there, and every answer is about the graph as it is. -/
structure Refines (g : CachedGraph) (m : Listing) : Prop where
  inRange : g.graph.InRange
  keys_eq : g.graph.keys = m.keys
  contains_iff : ∀ key, g.graph.contains key ↔ key ∈ m.keys
  size_eq : g.graph.size = m.length
  readersOf_eq : ∀ key, g.graph.readersOf key = m.readersOf key
  ask_eq : ∀ {α : Type} (question : DependencyGraph → Condensation → α),
    (g.ask question).1 = question g.graph g.graph.condensation
  askAt_eq : ∀ {α : Type} (key : CellKey)
    (question : DependencyGraph → Condensation → CellKey → α),
    (g.askAt key question).1 =
      if key ∈ m.keys then some (question g.graph g.graph.condensation key) else none
  add_eq : ∀ key, (g.add key).1 = decide (key ∉ m.keys)
  rename_eq : ∀ source target, (g.rename source target).1 = decide (source ∈ m.keys)

theorem Fresh.refines (hfresh : g.Fresh) (h : g.graph.WellFormed) : g.Refines g.graph.listing where
  inRange := h.inRange
  keys_eq := DependencyGraph.keys_listing.symm
  contains_iff _ := by rw [h.contains_iff, DependencyGraph.keys_listing]
  size_eq := by
    rw [DependencyGraph.size_eq_length_keys h, ← DependencyGraph.keys_listing, Listing.keys,
      List.length_map]
  readersOf_eq _ := (DependencyGraph.readersOf_listing h _).symm
  ask_eq := hfresh.ask_eq
  askAt_eq key question := by
    simp only [hfresh.askAt_eq, h.contains_iff, DependencyGraph.keys_listing]
  add_eq key := by
    rw [DependencyGraph.keys_listing, add]
    by_cases hkey : key ∈ g.graph.keys
    · simp [h.contains_iff.2 hkey, hkey]
    · simp [mt h.contains_iff.1 hkey, hkey]
  rename_eq source target := by
    rw [DependencyGraph.keys_listing, rename]
    by_cases hs : source ∈ g.graph.keys
    · by_cases heq : source = target
      · simp [h.contains_iff.2 hs, hs, ← heq]
      · simp [h.contains_iff.2 hs, hs, heq]
    · simp [mt h.contains_iff.1 hs, hs]

/-- Whatever the calls are, a graph shows what the list of its nodes with their readers shows after
    the edits among them. -/
theorem refines_after (calls : List Call) :
    (after calls).Refines (.after (calls.filterMap Call.edit?)) := by
  have hgraph := graph_after calls
  rw [← DependencyGraph.listing_after, ← hgraph]
  exact (fresh_after calls).refines (hgraph ▸ DependencyGraph.wellFormed_after _)

end CachedGraph

end Spreadsheet
