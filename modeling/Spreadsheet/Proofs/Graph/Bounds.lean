import Spreadsheet.Proofs.Graph.Evaluation
import Spreadsheet.Proofs.Graph.Listing

/-!
# Everything that is looked up is there

Slots and numbers of components are looked up in arrays all over the graph, and a look-up outside
its array would be given a default. None is: what is stored is in use, and so is everything that the
search and the ordering come across on their way.

Results:
* `Loop.InRange`, `Sweep.InRange`: what a moment of the search and of the ordering looks up; every
  moment that they come to is in range.
* `Condensation.InRange`: the same of what they leave behind.
* `Consistent`, `InRange`: the same of a whole graph.
* `WellFormed.inRange`: well-formed graphs are in range.
-/

namespace Spreadsheet

/-! ## The search -/

namespace Loop

/-- What the search looks up at this moment are nodes. -/
structure InRange (edges : Adjacency) (l : Loop) : Prop where
  marks_size : l.search.marks.size = edges.size
  frame_lt : ∀ f ∈ l.frames, f.node < edges.size ∧ ∀ w ∈ f.edges, w < edges.size
  stack_lt : ∀ v ∈ l.search.stack, v < edges.size
  root_lt : ∀ v ∈ l.roots, v < edges.size

variable {edges : Adjacency}

/-- An iteration tries one root or none. -/
theorem roots_suffix_of_step {l l' : Loop} (h : Step edges l l') : l'.roots <:+ l.roots := by
  unfold Step next? at h
  split at h
  · simp at h
  · cases h
    unfold tryRoot
    split
    · exact List.suffix_cons ..
    · exact List.suffix_cons ..
  · cases h
    exact List.suffix_rfl
  · cases h
    unfold follow
    split
    · exact List.suffix_rfl
    · exact List.suffix_rfl
    · exact List.suffix_rfl

theorem Reached.roots_suffix {l : Loop} (h : Reached edges l) :
    l.roots <:+ List.range edges.size := by
  induction h with
  | refl => exact List.suffix_rfl
  | tail _ hstep ih => exact (roots_suffix_of_step hstep).trans ih

theorem Reached.inRange (hb : edges.InBounds) {l : Loop} (h : Reached edges l) :
    l.InRange edges := by
  have hexploring := Reached.exploring hb h
  have hactive {v : Nat} (hv : l.search.Active v) : v < edges.size :=
    hexploring.size_eq ▸ Search.lt_size_of_active hv
  exact ⟨hexploring.size_eq,
    fun f hf => ⟨hactive (hexploring.frame_active _ (Search.node_mem_nodes hf)),
      fun w hw => hb _ w (hexploring.frame_edges f hf w hw)⟩,
    fun v hv => hactive ((hexploring.mem_stack v).1 hv),
    fun v hv => List.mem_range.1 (h.roots_suffix.subset hv)⟩

end Loop

/-! ## The ordering -/

namespace Waiting

theorem size_foldl_modify (targets : List Nat) (counts : Array Nat) :
    (targets.foldl (fun counts t => counts.modify t (· + 1)) counts).size = counts.size := by
  induction targets generalizing counts with
  | nil => rfl
  | cons t targets ih => rw [List.foldl_cons, ih, Array.size_modify]

theorem size_countInto (links : Adjacency) : (countInto links).size = links.size := by
  rw [countInto, ← Array.foldl_toList]
  refine List.foldlRecOn _ _ (motive := fun counts : Array Nat => counts.size = links.size)
    Array.size_replicate fun counts hcounts targets _ => ?_
  rw [size_foldl_modify, hcounts]

theorem size_release (w : Waiting) (t : Nat) : (w.release t).pending.size = w.pending.size := by
  unfold release
  split
  · exact Array.size_setIfInBounds
  · exact Array.size_setIfInBounds
  · rfl

theorem mem_ready_release {w : Waiting} {t v : Nat} (hv : v ∈ (w.release t).ready) :
    v ∈ w.ready ∨ v = t := by
  unfold release at hv
  split at hv
  · simpa using hv
  · exact Or.inl hv
  · exact Or.inl hv

end Waiting

namespace Sweep

/-- What the ordering looks up at this moment are components. -/
structure InRange (links : Adjacency) (s : Sweep) : Prop where
  pending_size : s.waiting.pending.size = links.size
  ready_lt : ∀ v ∈ s.waiting.ready, v < links.size
  target_lt : ∀ t ∈ s.targets, t < links.size

variable {links : Adjacency}

theorem inRange_start : (start links).InRange links where
  pending_size := Waiting.size_countInto links
  ready_lt _ hv := List.mem_range.1 (List.mem_filter.1 hv).1
  target_lt _ ht := absurd ht List.not_mem_nil

theorem inRange_of_step (hb : links.InBounds) {s s' : Sweep} (h : s.InRange links)
    (hstep : Step links s s') : s'.InRange links := by
  unfold Step next? at hstep
  split at hstep
  · rename_i w t targets order
    cases hstep
    refine ⟨(w.size_release t).trans h.pending_size, fun v hv => ?_,
      fun u hu => h.target_lt u (List.mem_cons_of_mem t hu)⟩
    rcases Waiting.mem_ready_release hv with hv | rfl
    · exact h.ready_lt v hv
    · exact h.target_lt v List.mem_cons_self
  · rename_i pending v rest order
    cases hstep
    exact ⟨h.pending_size, fun u hu => h.ready_lt u (List.mem_cons_of_mem v hu), hb v⟩
  · simp at hstep

theorem Reached.inRange (hb : links.InBounds) {s : Sweep} (h : Reached links s) :
    s.InRange links := by
  induction h with
  | refl => exact inRange_start
  | tail _ hstep ih => exact inRange_of_step hb ih hstep

end Sweep

/-! ## What is left behind -/

/-- The components list nodes, every node has the number of the component that lists it, and all
    other numbers are those of components. -/
structure Condensation.InRange (c : Condensation) (size : Nat) : Prop where
  owner_size : c.owner.size = size
  owner_iff : ∀ (v id : Nat),
    c.owner[v]? = some id ↔ ∃ members, c.components[id]? = some members ∧ v ∈ members
  owner_lt : ∀ (v id : Nat), c.owner[v]? = some id → id < c.components.size
  member_lt : ∀ (id : Nat) (members : List Nat), c.components[id]? = some members →
    ∀ v ∈ members, v < size
  links_size : c.links.size = c.components.size
  link_lt : ∀ (a : Nat) (targets : List Nat), c.links[a]? = some targets →
    ∀ b ∈ targets, b < c.components.size
  order_lt : ∀ id ∈ c.order, id < c.components.size

theorem Adjacency.InBounds.lt {edges : Adjacency} (hb : edges.InBounds) {v : Nat}
    {targets : List Nat} (hv : edges[v]? = some targets) {w : Nat} (hw : w ∈ targets) :
    w < edges.size := by
  refine hb v w ?_
  rwa [next, hv, Option.getD_some]

theorem inRange_condensation {edges : Adjacency} (hb : edges.InBounds) :
    (Condensation.of edges).InRange edges.size := by
  have howner (v id : Nat) : (Condensation.of edges).owner[v]? = some id ↔
      ∃ members, (Condensation.of edges).components[id]? = some members ∧ v ∈ members :=
    owner_eq_some_iff_mem hb
  have hsize : (Condensation.of edges).owner.size = edges.size := by
    have hmarks := (Search.exploring_searchAll hb).size_eq
    rwa [← Array.size_map] at hmarks
  refine ⟨hsize, howner, fun v id hid => ?_, fun id members hmembers v hv => ?_, size_links,
    fun a targets htargets b hmem => ?_, fun id => (mem_order hb).1⟩
  · obtain ⟨members, hmembers, -⟩ := (howner v id).1 hid
    exact (Array.getElem?_eq_some_iff.1 hmembers).1
  · have hid := (howner v id).2 ⟨members, hmembers, hv⟩
    exact hsize ▸ (Array.getElem?_eq_some_iff.1 hid).1
  · have hlt := (links_inBounds hb).lt htargets hmem
    rwa [size_links] at hlt

/-! ## Graphs -/

namespace DependencyGraph

variable {g : DependencyGraph}

/-- Slots and nodes are inverse to each other, no node is in two slots, every slot has one list of
    readers, and all slots that are stored are in use. -/
structure Consistent (g : DependencyGraph) : Prop where
  slots_iff : ∀ (key : CellKey) (id : Nat), g.slots[key]? = some id ↔ g.nodes[id]? = some key
  nodup : g.keys.Nodup
  slots_size : g.slots.size = g.nodes.size
  readers_size : g.readers.size = g.nodes.size
  slot_lt : ∀ (key : CellKey) (id : Nat), g.slots[key]? = some id → id < g.nodes.size
  reader_lt : ∀ (id : Nat) (readers : List Nat), g.readers[id]? = some readers →
    ∀ r ∈ readers, r < g.nodes.size

/-- What is looked up in a graph, by the search for its components, by their ordering and by any
    question about them is in range. -/
structure InRange (g : DependencyGraph) : Prop where
  consistent : g.Consistent
  searching : ∀ l, Loop.Reached g.readers l → l.InRange g.readers
  ordering : ∀ s, Sweep.Reached g.condensation.links s → s.InRange g.condensation.links
  condensation : g.condensation.InRange g.nodes.size

theorem WellFormed.consistent (h : g.WellFormed) : g.Consistent where
  slots_iff := h.slots_iff
  nodup := h.keys_nodup
  slots_size := (size_eq_length_keys h).trans Array.length_toList
  readers_size := h.size_eq
  slot_lt _ _ := h.slot_lt
  reader_lt _ _ hreaders _ hr := h.size_eq ▸ h.edges_inBounds.lt hreaders hr

theorem WellFormed.inRange (h : g.WellFormed) : g.InRange where
  consistent := h.consistent
  searching _ hl := hl.inRange h.edges_inBounds
  ordering _ hs := hs.inRange (links_inBounds h.edges_inBounds)
  condensation := h.size_eq ▸ inRange_condensation h.edges_inBounds

end DependencyGraph

end Spreadsheet
