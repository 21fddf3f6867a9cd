import Mathlib.Data.List.Sort
import Spreadsheet.Proofs.Graph.Exactness

/-!
# Repeated edges

A formula that names a cell twice reads it by two edges, and renaming a cell can add further ones.
To follow an edge a second time changes nothing, at whatever moment the search comes to it: its end
has been placed, or it is active and the low number of the node that is being explored is already at
most its number. So the search goes the same way with each edge once, and everything that is
computed from it is the same.

Results:
* `DependencyGraph.simple` is the graph with each edge once.
* `explore_simple`: from frames that differ in repeated edges only, the search comes to the same
  state.
* `simple_same_answers`: components, the edges between them, orders and cycles are the same.
-/

namespace Spreadsheet

/-! ## Each edge once -/

namespace Adjacency

/-- Each edge once; of equal ones the first stays. -/
def simple (edges : Adjacency) : Adjacency :=
  edges.map List.eraseDups

variable (edges : Adjacency)

theorem size_simple : edges.simple.size = edges.size :=
  Array.size_map

theorem next_simple (v : Nat) : edges.simple.next v = (edges.next v).eraseDups := by
  rw [simple, next, Array.getElem?_map, next]
  cases edges[v]? <;> rfl

theorem edge_simple (v w : Nat) : edges.simple.Edge v w ↔ edges.Edge v w := by
  rw [Edge, next_simple, List.mem_eraseDups, Edge]

variable {edges}

theorem InBounds.simple (hb : edges.InBounds) : edges.simple.InBounds := by
  intro v w hw
  rw [size_simple]
  exact hb v w ((edge_simple edges v w).1 hw)

end Adjacency

/-! ## The same search -/

namespace Search

variable {edges : Adjacency} {s : Search}

/-- The second frame has the edges of the first one that still have to be followed, each once: those
    to the nodes in `seen` have been followed. -/
inductive Thinned (edges : Adjacency) : Frame → Frame → Prop
  | intro (v : Nat) (ws seen : List Nat) (followed : ∀ w ∈ seen, edges.Edge v w) :
    Thinned edges ⟨v, ws⟩ ⟨v, (ws.filter (· ∉ seen)).eraseDups⟩

theorem thinned_next (v : Nat) : Thinned edges ⟨v, edges.next v⟩ ⟨v, edges.simple.next v⟩ := by
  have h : Thinned edges _ _ := .intro v (edges.next v) [] (by simp)
  simpa [Adjacency.next_simple] using h

theorem inherit_congr {frames frames' : List Frame}
    (hf : List.Forall₂ (Thinned edges) frames frames') (v : Nat) :
    s.inherit v frames = s.inherit v frames' := by
  cases hf with
  | nil => rfl
  | cons hhead _ =>
    cases hhead
    rfl

/-- An edge that the first frame no longer has leads to a node that is placed, or active and taken
    into account. -/
theorem Exploring.followed_of_not_mem {v w : Nat} {ws : List Nat} {frames : List Frame}
    (h : Exploring edges s (⟨v, ws⟩ :: frames)) (hedge : edges.Edge v w) (hw : w ∉ ws) :
    s.Followed v w := by
  have hv : s.Active v := h.frame_active v List.mem_cons_self
  refine h.followed v v w hv (cover_cons (Nat.le_refl _)) hedge ?_
  rintro ⟨f, hf, hnode, hmem⟩
  rcases List.mem_cons.1 hf with rfl | hf
  · exact hw hmem
  · have hlt := (List.pairwise_cons.1 h.frames_sorted).1 f.node (node_mem_nodes hf)
    rw [hnode] at hlt
    exact Nat.lt_irrefl _ hlt

theorem Followed.ne_unseen {v w : Nat} (h : s.Followed v w) : s.marks[w]? ≠ some .unseen := by
  rcases h with ⟨c, hc⟩ | ⟨hw, -⟩
  · rw [hc]
    simp
  · rw [hw.mark]
    simp

/-- To follow an edge to an active node a second time changes nothing. -/
theorem Followed.lower_eq_self {v w n l : Nat} (h : s.Followed v w) (hv : s.Active v)
    (hw : s.marks[w]? = some (.active n l)) : s.lower v n = s := by
  rcases h with ⟨c, hc⟩ | ⟨-, hle⟩
  · rw [Placed, hw] at hc
    simp at hc
  · obtain rfl : s.number w = n := by simp [number, hw]
    obtain ⟨hlt, hmark⟩ := Array.getElem?_eq_some_iff.1 hv.mark
    rw [lower_eq hv, Nat.min_eq_left hle, ← hmark]
    simp [Array.setIfInBounds, hlt]

/-- The next edge has been followed before, or it is the next one of the thinned frame as well. -/
theorem Thinned.cons_cases {v w : Nat} {ws : List Nat} {f : Frame} {frames : List Frame}
    (hf : Thinned edges ⟨v, w :: ws⟩ f) (h : Exploring edges.simple s (f :: frames)) :
    (Thinned edges ⟨v, ws⟩ f ∧ s.Followed v w) ∨
      ∃ ws', f = ⟨v, w :: ws'⟩ ∧ Thinned edges ⟨v, ws⟩ ⟨v, ws'⟩ := by
  obtain ⟨_, _, seen, hseen⟩ := hf
  by_cases hw : w ∈ seen
  · left
    have hws : (w :: ws).filter (· ∉ seen) = ws.filter (· ∉ seen) := by simp [hw]
    refine ⟨hws ▸ .intro v ws seen hseen, h.followed_of_not_mem ?_ ?_⟩
    · exact (edges.edge_simple _ w).2 (hseen w hw)
    · simp [List.mem_eraseDups, hw]
  · right
    have hws : ((w :: ws).filter (· ∉ seen)).eraseDups =
        w :: (ws.filter (· ∉ w :: seen)).eraseDups := by
      rw [List.filter_cons_of_pos (by simpa using hw), List.eraseDups_cons, List.filter_filter]
      simp [Bool.beq_eq_decide_eq]
    have hedge := h.frame_edges _ List.mem_cons_self w (by rw [hws]; exact List.mem_cons_self)
    refine ⟨_, by rw [hws], .intro v ws (w :: seen) ?_⟩
    intro u hu
    rcases List.mem_cons.1 hu with rfl | hu
    · exact (edges.edge_simple _ u).1 hedge
    · exact hseen u hu

/-- From frames that differ in repeated edges only, the search comes to the same state. Where an
    edge is repeated, the search of the thinned frames waits. -/
theorem explore_simple (hb : edges.InBounds) {frames frames' : List Frame}
    (hf : List.Forall₂ (Thinned edges) frames frames') (h : Exploring edges.simple s frames') :
    explore edges s frames = explore edges.simple s frames' := by
  fun_induction explore edges s frames generalizing frames' with
  | case1 s =>
    cases hf
    rw [explore]
  | case2 s v frames ih =>
    obtain _ | ⟨⟨⟩, hrest⟩ := hf
    rw [inherit_congr hrest] at ih ⊢
    rw [List.filter_nil, List.eraseDups_nil] at h ⊢
    rw [explore]
    exact ih hrest h.finish
  | case3 s v w ws frames hw _ ih =>
    obtain _ | ⟨hhead, hrest⟩ := hf
    rcases hhead.cons_cases h with ⟨-, hfollowed⟩ | ⟨ws', rfl, hthin⟩
    · exact absurd hw hfollowed.ne_unseen
    · rw [explore_of_unseen hw]
      exact ih (.cons (thinned_next w) (.cons hthin hrest)) (h.follow_unseen hw)
  | case4 s v w ws frames n l hw ih =>
    obtain _ | ⟨hhead, hrest⟩ := hf
    rcases hhead.cons_cases h with ⟨hthin, hfollowed⟩ | ⟨ws', rfl, hthin⟩
    · -- the low number has been lowered for this edge before
      have hv : s.Active v := by
        cases hthin
        exact h.frame_active v List.mem_cons_self
      rw [hfollowed.lower_eq_self hv hw] at ih ⊢
      exact ih (.cons hthin hrest) h
    · rw [explore_of_active hw]
      exact ih (.cons hthin hrest) (h.follow_active hw)
  | case5 s v w ws frames hunseen hactive ih =>
    obtain _ | ⟨hhead, hrest⟩ := hf
    rcases hhead.cons_cases h with ⟨hthin, -⟩ | ⟨ws', rfl, hthin⟩
    · exact ih (.cons hthin hrest) h
    · rw [explore_of_placed hunseen hactive]
      exact ih (.cons hthin hrest) (h.follow_placed hb.simple hunseen hactive)

section Whole

variable (hb : edges.InBounds)
include hb

theorem visit_simple (h : Exploring edges.simple s []) (root : Nat) :
    visit edges s root = visit edges.simple s root := by
  unfold visit
  split
  · rename_i hroot
    exact explore_simple hb (.cons (thinned_next root) .nil) (h.enter hroot (by simp))
  · rfl

theorem foldl_visit_simple (h : Exploring edges.simple s []) (roots : List Nat) :
    roots.foldl (visit edges) s = roots.foldl (visit edges.simple) s := by
  induction roots generalizing s with
  | nil => rfl
  | cons root roots ih =>
    rw [List.foldl_cons, List.foldl_cons, visit_simple hb h]
    exact ih (exploring_visit hb.simple h root)

end Whole

end Search

/-! ## The same results -/

section Results

variable {edges : Adjacency}

theorem searchAll_simple (hb : edges.InBounds) : searchAll edges.simple = searchAll edges := by
  rw [searchAll, searchAll, Adjacency.size_simple]
  refine (Search.foldl_visit_simple hb ?_ _).symm
  rw [← Adjacency.size_simple]
  exact Search.exploring_start edges.simple

/-- The edges of a component, each once and in order, are decided by what they lead to. -/
theorem linksOf_simple (owner : Array Nat) (component : Nat) (members : List Nat) :
    linksOf edges.simple owner component members = linksOf edges owner component members := by
  refine (linksOf_sorted ..).eq_of_mem_iff (linksOf_sorted ..) ?_
  intro d
  simp only [mem_linksOf_iff, Adjacency.edge_simple]

theorem condensation_of_simple (hb : edges.InBounds) :
    Condensation.of edges.simple = Condensation.of edges := by
  have hlinks (components : Array (List Nat)) (owner : Array Nat) :
      componentLinks edges.simple components owner = componentLinks edges components owner := by
    rw [componentLinks, componentLinks]
    congr 1
    funext component members
    exact linksOf_simple ..
  simp only [Condensation.of, searchAll_simple hb, hlinks]

end Results

namespace DependencyGraph

variable {g : DependencyGraph}

/-- The graph with each edge once; of equal ones the first stays. -/
def simple (g : DependencyGraph) : DependencyGraph :=
  { g with readers := g.readers.simple }

/-- Slots are repeated where cells are. -/
theorem keysAt_eraseDups (h : g.WellFormed) (ids : List Nat)
    (hids : ∀ id ∈ ids, id < g.nodes.size) :
    g.keysAt ids.eraseDups = (g.keysAt ids).eraseDups := by
  match ids with
  | [] => rfl
  | id :: ids =>
    have hlt : id < g.nodes.size := hids id List.mem_cons_self
    have hnode : g.nodes[id]? = some g.nodes[id] := by simp [hlt]
    have hkeys (ids : List Nat) : g.keysAt (id :: ids) = g.nodes[id] :: g.keysAt ids := by
      simp [keysAt, hnode]
    have hother : g.keysAt (ids.filter fun i => !i == id) =
        (g.keysAt ids).filter fun key => !key == g.nodes[id] :=
      keysAt_filter (fun i key hi => by rw [h.slot_beq hi hnode]) ids
    rw [List.eraseDups_cons, hkeys, hkeys, List.eraseDups_cons, ← hother,
      keysAt_eraseDups h (ids.filter fun i => !i == id)]
    intro i hi
    exact hids i (List.mem_cons_of_mem _ (List.mem_filter.1 hi).1)
termination_by ids.length
decreasing_by exact Nat.lt_succ_of_le (List.length_filter_le ..)

theorem readersOf_simple (h : g.WellFormed) (key : CellKey) :
    g.simple.readersOf key = (g.readersOf key).eraseDups := by
  rcases hs : g.slots[key]? with _ | id
  · simp [readersOf, simple, hs]
  · rw [readersOf_eq (g := g.simple) hs, readersOf_eq hs, ← keysAt_eraseDups h _ (h.inBounds id),
      ← Adjacency.next_simple]
    rfl

/-- A node reads itself by one edge if it does so by several. -/
theorem inCycle_simple (c : Condensation) (key : CellKey) :
    g.simple.inCycle c key = g.inCycle c key := by
  have hself (id : Nat) :
      (g.readers.simple.next id).contains id = (g.readers.next id).contains id := by
    rw [Adjacency.next_simple, Bool.eq_iff_iff, List.contains_iff_mem, List.contains_iff_mem,
      List.mem_eraseDups]
  simp only [inCycle, simple, hself]

/-- Whatever the edits are that make a graph, every question has the same answer on the graph with
    each edge once: its components are the same, in the same order and with their nodes in the same
    order, and so are the component of each node, the edges between components, the orders and the
    nodes on cycles. -/
theorem simple_same_answers (edits : List GraphEdit) :
    let g := after edits
    let c := g.condensation
    let c' := g.simple.condensation
    g.simple.keys = g.keys ∧
      (∀ key, g.simple.readersOf key = (g.readersOf key).eraseDups) ∧
      c'.components = c.components ∧ c'.owner = c.owner ∧ c'.links = c.links ∧
      c'.order = c.order ∧
      (∀ id, g.simple.members c' id = g.members c id) ∧
      (∀ key, g.simple.componentId? c' key = g.componentId? c key) ∧
      (∀ key, g.simple.componentOf c' key = g.componentOf c key) ∧
      g.simple.evaluationOrder c' = g.evaluationOrder c ∧
      (∀ key, g.simple.inCycle c' key = g.inCycle c key) ∧
      g.simple.cycleMembers c' = g.cycleMembers c := by
  intro g c c'
  have h : g.WellFormed := wellFormed_after edits
  have hc : c' = c := condensation_of_simple h.edges_inBounds
  rw [hc]
  refine ⟨rfl, readersOf_simple h, rfl, rfl, rfl, rfl, fun _ => rfl, fun _ => rfl, fun _ => rfl,
    rfl, inCycle_simple c, ?_⟩
  rw [cycleMembers, cycleMembers, funext (inCycle_simple (g := g) c)]
  rfl

end DependencyGraph

end Spreadsheet
