import Mathlib.Logic.ExistsUnique
import Spreadsheet.Proofs.Graph.Cycles
import Spreadsheet.Proofs.Graph.Steps

/-!
# The components of every graph are exact

A graph is made by edits from the graph without nodes. Whatever the edits are, edges of a node to
itself and repeated edges among them, the search for components ends, the components are the
classes of nodes that reach each other, and their numbers count them in the order of completion.

Results:
* `wellFormed_after`: what edits make is well-formed.
* `componentId?_eq_iff`: two nodes are in one component iff each reaches the other.
* `componentId_lt_of_readBy`: an edge between two components leads to the smaller number.
* `exactComponents_after`: all of it, for the graph after any edits.
-/

namespace Spreadsheet

/-! ## Edits -/

/-- An edit of a graph. -/
inductive GraphEdit where
  | add (key : CellKey)
  | connect (source reader : CellKey)
  | disconnect (reader : CellKey)
  | disconnectWhere (p : CellKey → Bool)
  | rename (source target : CellKey)

/-- What an edit makes of a graph. -/
def GraphEdit.apply (g : DependencyGraph) : GraphEdit → DependencyGraph
  | .add key => g.add key
  | .connect source reader => g.connect source reader
  | .disconnect reader => g.disconnect reader
  | .disconnectWhere p => g.disconnectWhere p
  | .rename source target => g.rename source target

namespace DependencyGraph

/-- The graph that edits make of the graph without nodes. -/
def after (edits : List GraphEdit) : DependencyGraph :=
  edits.foldl GraphEdit.apply ∅

variable {g : DependencyGraph}

theorem WellFormed.apply (h : g.WellFormed) (edit : GraphEdit) : (edit.apply g).WellFormed := by
  cases edit with
  | add key => exact h.add key
  | connect source reader => exact h.connect source reader
  | disconnect reader => exact h.disconnect reader
  | disconnectWhere p => exact h.disconnectWhere p
  | rename source target => exact h.rename source target

theorem WellFormed.foldl_apply (h : g.WellFormed) (edits : List GraphEdit) :
    (edits.foldl GraphEdit.apply g).WellFormed := by
  induction edits generalizing g with
  | nil => exact h
  | cons edit edits ih => exact ih (h.apply edit)

theorem wellFormed_after (edits : List GraphEdit) : (after edits).WellFormed :=
  wellFormed_empty.foldl_apply edits

/-! ## Numbers of components -/

section Numbers

variable (h : g.WellFormed)
include h

theorem componentId?_eq_some_iff {key : CellKey} {id : Nat} :
    g.componentId? g.condensation key = some id ↔ key ∈ g.members g.condensation id := by
  rw [mem_members_iff h, componentId?, Option.bind_eq_some_iff]
  rfl

theorem exists_componentId {key : CellKey} (hkey : key ∈ g.keys) :
    ∃ id, g.componentId? g.condensation key = some id := by
  obtain ⟨i, hi⟩ := h.mem_keys_iff_slot.1 hkey
  obtain ⟨id, hid⟩ := h.exists_component hi
  exact ⟨id, (componentId?_eq_some_iff h).2 ((mem_members_iff h).2 ⟨i, hi, hid⟩)⟩

theorem mem_keys_of_mem_members {key : CellKey} {id : Nat}
    (hkey : key ∈ g.members g.condensation id) : key ∈ g.keys := by
  obtain ⟨i, hi, -⟩ := (mem_members_iff h).1 hkey
  exact h.mem_keys_iff_slot.2 ⟨i, hi⟩

/-- A cell is a node iff it is in exactly one component. -/
theorem mem_keys_iff_existsUnique {key : CellKey} :
    key ∈ g.keys ↔ ∃! id, key ∈ g.members g.condensation id := by
  constructor
  · intro hkey
    obtain ⟨id, hid⟩ := exists_componentId h hkey
    have hmem := (componentId?_eq_some_iff h).1 hid
    exact ⟨id, hmem, fun d hd => component_unique h hd hmem⟩
  · rintro ⟨id, hid, -⟩
    exact mem_keys_of_mem_members h hid

/-- The numbers in use are those below the number of components. -/
theorem members_ne_nil_iff {id : Nat} :
    g.members g.condensation id ≠ [] ↔ id < g.condensation.components.size := by
  have hdone : g.condensation.components = (searchAll g.readers).done := rfl
  rw [hdone]
  constructor
  · intro hne
    obtain ⟨key, hkey⟩ := List.exists_mem_of_ne_nil _ hne
    obtain ⟨i, -, howner⟩ := (mem_members_iff h).1 hkey
    obtain ⟨members, hmembers, -⟩ := (owner_eq_some_iff_mem h.edges_inBounds).1 howner
    exact (Array.getElem?_eq_some_iff.1 hmembers).1
  · intro hlt
    have hget : (searchAll g.readers).done[id]? = some (searchAll g.readers).done[id] := by
      simp [hlt]
    have hmem := Array.getElem_mem hlt
    obtain ⟨i, hi⟩ := List.exists_mem_of_ne_nil _ (done_nodup h.edges_inBounds hmem).1
    have howner := (owner_eq_some_iff_mem h.edges_inBounds).2 ⟨_, hget, hi⟩
    -- the component lists a slot, and every slot has a node
    have hsize : i < g.nodes.size := by
      have hsome := (Array.getElem?_eq_some_iff.1 howner).1
      rwa [Search.owner, Array.size_map, (Search.exploring_searchAll h.edges_inBounds).size_eq,
        h.size_eq] at hsome
    have hslot : g.slots[g.nodes[i]]? = some i := (h.slots_iff _ i).2 (by simp [hsize])
    exact List.ne_nil_of_mem ((mem_members_iff h).2 ⟨i, hslot, howner⟩)

/-! ## Paths -/

/-- A path of slots is a path of cells, also if it has no edge. -/
theorem reflTransGen_readBy_iff {u v : CellKey} {i j : Nat} (hi : g.slots[u]? = some i)
    (hj : g.slots[v]? = some j) :
    Relation.ReflTransGen g.ReadBy u v ↔ g.readers.Reaches i j := by
  have hslot : v = u ↔ j = i := by
    constructor
    · rintro rfl
      exact Option.some.inj (hj.symm.trans hi)
    · rintro rfl
      rw [h.slots_iff] at hi hj
      exact Option.some.inj (hj.symm.trans hi)
  rw [Adjacency.Reaches, Relation.reflTransGen_iff_eq_or_transGen,
    Relation.reflTransGen_iff_eq_or_transGen, h.transGen_readBy_iff hi hj, hslot]

/-- Two nodes are in one component iff each reaches the other. -/
theorem componentId?_eq_iff {u v : CellKey} (hu : u ∈ g.keys) (hv : v ∈ g.keys) :
    g.componentId? g.condensation u = g.componentId? g.condensation v ↔
      Relation.ReflTransGen g.ReadBy u v ∧ Relation.ReflTransGen g.ReadBy v u := by
  obtain ⟨i, hi⟩ := h.mem_keys_iff_slot.1 hu
  obtain ⟨j, hj⟩ := h.mem_keys_iff_slot.1 hv
  rw [reflTransGen_readBy_iff h hi hj, reflTransGen_readBy_iff h hj hi,
    ← owner_eq_iff h.edges_inBounds (h.slot_lt_readers hi) (h.slot_lt_readers hj),
    componentId?, componentId?, hi, hj]
  rfl

/-- An edge between two components leads to the one with the smaller number. -/
theorem componentId_lt_of_readBy {u v : CellKey} {a b : Nat} (hread : g.ReadBy u v)
    (ha : g.componentId? g.condensation u = some a)
    (hb : g.componentId? g.condensation v = some b) (hne : a ≠ b) : b < a := by
  obtain ⟨i, hi, hia⟩ := (mem_members_iff h).1 ((componentId?_eq_some_iff h).1 ha)
  obtain ⟨j, hj, hjb⟩ := (mem_members_iff h).1 ((componentId?_eq_some_iff h).1 hb)
  have hle := owner_le_of_edge h.edges_inBounds ((h.readBy_iff_edge hi hj).1 hread) hia hjb
  omega

/-- Only nodes lie on cycles. -/
theorem mem_keys_of_onCycle {key : CellKey} (hcycle : g.OnCycle key) : key ∈ g.keys := by
  obtain ⟨v, hread, -⟩ := Relation.TransGen.head'_iff.1 hcycle
  exact h.mem_keys_of_readersOf hread

end Numbers

/-! ## The result -/

/-- The components of a graph, found exactly. -/
structure ExactComponents (g : DependencyGraph) : Prop where
  /-- The search ends: its loop has a last moment, to which every run leads, and what is complete
      then are the components. -/
  ends : ∃ last : Loop, last.next? g.readers = none ∧
    last.search.done = g.condensation.components ∧
    ∀ l, Loop.Reached g.readers l → Loop.Runs g.readers l last
  /-- The numbers `0, 1, …` count the components in the order in which they are completed. -/
  numbered : ∀ l, Loop.Reached g.readers l →
    l.search.done.toList <+: g.condensation.components.toList
  /-- The components partition the nodes. -/
  partition : ∀ key, key ∈ g.keys ↔ ∃! id, key ∈ g.members g.condensation id
  /-- A component lists no node twice. -/
  nodup : ∀ id, (g.members g.condensation id).Nodup
  /-- The numbers below the number of components are in use, and no others. -/
  used : ∀ id, g.members g.condensation id ≠ [] ↔ id < g.condensation.components.size
  /-- The number given for a cell is the number of the component that lists it. -/
  listed : ∀ key id,
    g.componentId? g.condensation key = some id ↔ key ∈ g.members g.condensation id
  /-- Two nodes have one number iff each is reachable from the other. -/
  same_iff : ∀ u ∈ g.keys, ∀ v ∈ g.keys,
    (g.componentId? g.condensation u = g.componentId? g.condensation v ↔
      Relation.ReflTransGen g.ReadBy u v ∧ Relation.ReflTransGen g.ReadBy v u)
  /-- An edge between different components leads from the larger number to the smaller one. -/
  edge_lt : ∀ u v a b, g.ReadBy u v → g.componentId? g.condensation u = some a →
    g.componentId? g.condensation v = some b → a ≠ b → b < a
  /-- The test for cycles finds the nodes with a path of at least one edge back to them. -/
  cycle_iff : ∀ key, g.inCycle g.condensation key = true ↔
    key ∈ g.keys ∧ Relation.TransGen g.ReadBy key key

theorem WellFormed.exactComponents (h : g.WellFormed) : g.ExactComponents where
  ends := ⟨⟨searchAll g.readers, [], []⟩, rfl, rfl, fun _ hl => hl.runs_searchAll⟩
  numbered := fun _ hl => hl.done_prefix_searchAll
  partition := fun _ => mem_keys_iff_existsUnique h
  nodup := members_nodup h
  used := fun _ => members_ne_nil_iff h
  listed := fun _ _ => componentId?_eq_some_iff h
  same_iff := fun _ hu _ hv => componentId?_eq_iff h hu hv
  edge_lt := fun _ _ _ _ hread ha hb hne => componentId_lt_of_readBy h hread ha hb hne
  cycle_iff := fun _ => by
    rw [inCycle_iff h]
    exact ⟨fun hcycle => ⟨mem_keys_of_onCycle h hcycle, hcycle⟩, And.right⟩

/-- Whatever the edits are that make a graph, its components are found exactly. -/
theorem exactComponents_after (edits : List GraphEdit) : (after edits).ExactComponents :=
  (wellFormed_after edits).exactComponents

end DependencyGraph

end Spreadsheet
