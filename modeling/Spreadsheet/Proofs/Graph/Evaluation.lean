import Spreadsheet.Proofs.Graph.Exactness

/-!
# The evaluation order of every graph is exact

Kahn's algorithm, one iteration at a time: an iteration takes the first ready component or closes
the next edge of the component that was taken last. The counter of the component at the end of that
edge is never zero, since it counts the edge. The recursion of `Waiting.takeAll` is a run of this
loop.

Results:
* `Sweep.Reached.pending_pos`: no counter falls below zero.
* `Sweep.reached_kahn`: the loop ends with the order of `kahn`.
* `exactOrder_after`: links, order of the components and order of the nodes, for the graph after
  any edits.
-/

namespace Spreadsheet

/-! ## Kahn's algorithm as a loop -/

/-- A moment of the algorithm: its state, the edges of the component taken last that have not been
    closed, and the components taken so far. -/
structure Sweep where
  waiting : Waiting
  targets : List Nat
  order : List Nat

namespace Sweep

/-- The algorithm before its first iteration. -/
def start (links : Adjacency) : Sweep :=
  ⟨Waiting.start links, [], []⟩

/-- One iteration. Without open edges and ready components there is none. -/
def next? (links : Adjacency) : Sweep → Option Sweep
  | ⟨w, t :: targets, order⟩ => some ⟨w.release t, targets, order⟩
  | ⟨⟨pending, v :: rest⟩, [], order⟩ => some ⟨⟨pending, rest⟩, links.next v, order ++ [v]⟩
  | ⟨⟨_, []⟩, [], _⟩ => none

/-- An iteration leads from one moment to the other. -/
def Step (links : Adjacency) (s s' : Sweep) : Prop := s.next? links = some s'

/-- A run of the algorithm leads from one moment to the other. -/
def Runs (links : Adjacency) : Sweep → Sweep → Prop := Relation.ReflTransGen (Step links)

/-- The algorithm comes to this moment. -/
def Reached (links : Adjacency) (s : Sweep) : Prop := Runs links (start links) s

variable {links : Adjacency}

/-! ## The loop ends -/

/-- Closing edges is a run that takes no component. -/
theorem runs_release (w : Waiting) (targets order : List Nat) :
    Runs links ⟨w, targets, order⟩ ⟨targets.foldl Waiting.release w, [], order⟩ := by
  induction targets generalizing w with
  | nil => exact .refl
  | cons t targets ih => exact .head rfl (ih _)

/-- Taking what is ready is a run that appends what is taken. -/
theorem runs_takeAll (w : Waiting) (order : List Nat) :
    ∃ last : Waiting, last.ready = [] ∧
      Runs links ⟨w, [], order⟩ ⟨last, [], order ++ w.takeAll links⟩ := by
  fun_induction Waiting.takeAll links w generalizing order with
  | case1 w hready =>
    refine ⟨w, hready, ?_⟩
    rw [List.append_nil]
    exact .refl
  | case2 w v rest hready ih =>
    obtain ⟨pending, ready⟩ := w
    obtain rfl : ready = v :: rest := hready
    obtain ⟨last, hlast, hrun⟩ := ih (order ++ [v])
    rw [List.append_assoc, List.singleton_append] at hrun
    have htake : Step links ⟨⟨pending, v :: rest⟩, [], order⟩
        ⟨⟨pending, rest⟩, links.next v, order ++ [v]⟩ := rfl
    exact ⟨last, hlast, .head htake ((runs_release _ _ _).trans hrun)⟩

/-- The algorithm ends with nothing ready and the order of `kahn`. -/
theorem reached_kahn (links : Adjacency) :
    ∃ last : Waiting, last.ready = [] ∧ Reached links ⟨last, [], kahn links⟩ :=
  runs_takeAll _ []

/-! ## Counters -/

/-- Between two takings the counters are exact, and after a taking they are exact up to the edges of
    the taken component that have been closed. -/
inductive Counting (links : Adjacency) : Sweep → Prop where
  | settled {taken order : List Nat} {w : Waiting} (h : Waiting.Taking links taken w) :
      Counting links ⟨w, [], order⟩
  | closing {taken order rest closed targets : List Nat} {v : Nat} {pending : Array Nat}
      (h : Waiting.Taking links taken ⟨pending, v :: rest⟩)
      (hnext : links.next v = closed ++ targets) :
      Counting links ⟨closed.foldl Waiting.release ⟨pending, rest⟩, targets, order⟩

section Counters

variable (hb : links.InBounds) (hnodup : ∀ a, (links.next a).Nodup)
include hb hnodup

/-- An edge of the taken component that has not been closed is counted. -/
theorem pending_pos_of_closing {taken rest closed targets : List Nat} {v t : Nat}
    {pending : Array Nat} (h : Waiting.Taking links taken ⟨pending, v :: rest⟩)
    (hnext : links.next v = closed ++ t :: targets) :
    ∃ n, (closed.foldl Waiting.release ⟨pending, rest⟩).pending[t]? = some (n + 1) := by
  obtain ⟨hlt, hv, -⟩ := (h.mem_ready v).1 List.mem_cons_self
  have hsome : ∀ u ∈ links.next v, ∃ n, pending[u]? = some (n + 1) := by
    intro u hu
    refine ⟨openInto links (v :: taken) u, ?_⟩
    rw [h.pending_eq u (hb v u hu), openInto_cons hlt hv, if_pos hu]
  have hdistinct := hnodup v
  rw [hnext] at hsome hdistinct
  obtain ⟨hclosed, -, hapart⟩ := List.nodup_append.1 hdistinct
  have ht : t ∉ closed := fun hmem => hapart t hmem t List.mem_cons_self rfl
  have hsome' : ∀ u ∈ closed, ∃ n, pending[u]? = some (n + 1) :=
    fun u hu => hsome u (List.mem_append_left _ hu)
  rw [(Waiting.foldl_release hclosed hsome').1 t, if_neg ht]
  exact hsome t (by simp)

theorem Counting.step {s s' : Sweep} (h : Counting links s) (hstep : Step links s s') :
    Counting links s' := by
  -- after the last edge of a component has been closed the counters are exact
  have hsettled : ∀ s, Counting links s → s.targets = [] →
      ∃ taken, Waiting.Taking links taken s.waiting := by
    intro s hs hnil
    cases hs with
    | settled hw => exact ⟨_, hw⟩
    | closing hw hnext =>
      subst hnil
      rw [List.append_nil] at hnext
      exact ⟨_, hnext ▸ hw.step hb hnodup⟩
  unfold Step next? at hstep
  split at hstep
  · rename_i w t targets order
    cases hstep
    cases h with
    | @closing _ _ _ closed _ _ _ hw hnext =>
      rw [List.append_cons] at hnext
      have hnow : Counting links ⟨(closed ++ [t]).foldl Waiting.release _, targets, order⟩ :=
        .closing hw hnext
      rwa [List.foldl_append] at hnow
  · cases hstep
    obtain ⟨taken, hw⟩ := hsettled _ h rfl
    exact .closing hw (List.nil_append _).symm
  · simp at hstep

theorem Reached.counting {s : Sweep} (h : Reached links s) : Counting links s := by
  induction h with
  | refl => exact .settled (Waiting.taking_start hnodup)
  | tail _ hstep ih => exact ih.step hb hnodup hstep

/-- No counter falls below zero: what an iteration lowers is not zero. -/
theorem Reached.pending_pos {s : Sweep} (h : Reached links s) {t : Nat}
    (ht : s.targets.head? = some t) : ∃ n, s.waiting.pending[t]? = some (n + 1) := by
  obtain ⟨w, targets, order⟩ := s
  obtain ⟨targets, rfl⟩ : ∃ rest, targets = t :: rest := by
    cases targets with
    | nil => simp at ht
    | cons u rest => exact ⟨rest, by rw [Option.some.inj ht]⟩
  cases Reached.counting hb hnodup h with
  | closing hw hnext => exact pending_pos_of_closing hb hnodup hw hnext

end Counters

end Sweep

namespace DependencyGraph

variable {g : DependencyGraph}

/-! ## Components in order -/

section Components

variable (h : g.WellFormed)
include h

/-- The components that a component has edges to are those that its nodes are read by. -/
theorem mem_links_iff {a b : Nat} :
    b ∈ g.condensation.links.next a ↔
      a ≠ b ∧ ∃ u ∈ g.members g.condensation a, ∃ v ∈ g.members g.condensation b, g.ReadBy u v := by
  have hedges : b ∈ g.condensation.links.next a ↔ _ := mem_componentLinks_iff h.edges_inBounds
  rw [hedges]
  constructor
  · rintro ⟨hne, i, j, hi, hedge, hj⟩
    obtain ⟨u, hu⟩ := h.exists_slot (Adjacency.lt_of_edge hedge)
    obtain ⟨v, hv⟩ := h.exists_slot (h.edges_inBounds i j hedge)
    exact ⟨hne, u, (mem_members_iff h).2 ⟨i, hu, hi⟩, v, (mem_members_iff h).2 ⟨j, hv, hj⟩,
      (h.readBy_iff_edge hu hv).2 hedge⟩
  · rintro ⟨hne, u, hu, v, hv, hread⟩
    obtain ⟨i, hui, hi⟩ := (mem_members_iff h).1 hu
    obtain ⟨j, hvj, hj⟩ := (mem_members_iff h).1 hv
    exact ⟨hne, i, j, hi, (h.readBy_iff_edge hui hvj).1 hread, hj⟩

/-- The nodes of a component are those that the search popped off its stack when the component was
    complete, in that order. -/
theorem exists_popped_members {id : Nat} (hid : id < g.condensation.components.size) :
    ∃ l l' slots, Loop.Reached g.readers l ∧ Loop.Step g.readers l l' ∧
      l.search.done.size = id ∧ l.search.stack = slots ++ l'.search.stack ∧
      l'.search.done = l.search.done.push slots ∧
      g.members g.condensation id = g.keysAt slots := by
  have hget : (searchAll g.readers).done[id]? = some g.condensation.components[id] :=
    Array.getElem?_eq_getElem hid
  obtain ⟨l, l', hl, hstep, hsize, hdone, hstack⟩ :=
    Loop.exists_popped h.edges_inBounds (Loop.reached_searchAll g.readers) hget
  refine ⟨l, l', _, hl, hstep, hsize, hstack, hdone, ?_⟩
  rw [members, Condensation.membersOf, Array.getElem?_eq_getElem hid, Option.getD_some]

/-- Two nodes that are given different numbers are in no component together. -/
theorem not_mem_members_of_ne {u v : CellKey}
    (hne : g.componentId? g.condensation u ≠ g.componentId? g.condensation v) {id : Nat}
    (hu : u ∈ g.members g.condensation id) : v ∉ g.members g.condensation id := fun hv =>
  hne (((componentId?_eq_some_iff h).2 hu).trans ((componentId?_eq_some_iff h).2 hv).symm)

end Components

/-! ## The result -/

/-- The order of the components and of the nodes of a graph is complete, and every edge leads
    forward in it but for those inside a component. -/
structure ExactOrder (g : DependencyGraph) : Prop where
  /-- A component has an edge to another one iff a node of it has an edge to a node of the other. -/
  link_iff : ∀ a b, b ∈ g.condensation.links.next a ↔
    a ≠ b ∧ ∃ u ∈ g.members g.condensation a, ∃ v ∈ g.members g.condensation b, g.ReadBy u v
  /-- The components that a component has edges to are listed in ascending order, each once. -/
  link_sorted : ∀ a, (g.condensation.links.next a).Pairwise (· < ·)
  /-- The algorithm comes to a moment with nothing ready, and has taken the components in order. -/
  ends : ∃ last : Waiting, last.ready = [] ∧
    Sweep.Reached g.condensation.links ⟨last, [], g.condensation.order⟩
  /-- At no moment is a counter lowered that is zero. -/
  counted : ∀ s, Sweep.Reached g.condensation.links s → ∀ t, s.targets.head? = some t →
    ∃ n, s.waiting.pending[t]? = some (n + 1)
  /-- Every component is taken, and taken once. -/
  mem_order_iff : ∀ id, id ∈ g.condensation.order ↔ id < g.condensation.components.size
  order_nodup : g.condensation.order.Nodup
  /-- A component is taken after all components with an edge to it. -/
  order_forward : ∀ a b before after, b ∈ g.condensation.links.next a →
    g.condensation.order = before ++ b :: after → a ∈ before
  /-- Every node is listed, and listed once. -/
  mem_nodes_iff : ∀ key, key ∈ g.evaluationOrder g.condensation ↔ key ∈ g.keys
  nodes_nodup : (g.evaluationOrder g.condensation).Nodup
  /-- The nodes of a component stand together, as they were popped off the stack of the search. -/
  contiguous : ∀ id, id < g.condensation.components.size →
    (∃ before after, g.evaluationOrder g.condensation =
      before ++ g.members g.condensation id ++ after) ∧
    ∃ l l' slots, Loop.Reached g.readers l ∧ Loop.Step g.readers l l' ∧
      l.search.done.size = id ∧ l.search.stack = slots ++ l'.search.stack ∧
      l'.search.done = l.search.done.push slots ∧
      g.members g.condensation id = g.keysAt slots
  /-- A node stands before every node of another component that reads it. -/
  nodes_forward : ∀ u v before after, g.ReadBy u v →
    g.componentId? g.condensation u ≠ g.componentId? g.condensation v →
    g.evaluationOrder g.condensation = before ++ v :: after → u ∈ before

theorem WellFormed.exactOrder (h : g.WellFormed) : g.ExactOrder where
  link_iff := fun _ _ => mem_links_iff h
  link_sorted := links_sorted
  ends := Sweep.reached_kahn g.condensation.links
  counted := fun _ hs _ ht => hs.pending_pos (links_inBounds h.edges_inBounds) links_nodup ht
  mem_order_iff := fun _ => mem_order h.edges_inBounds
  order_nodup := (readyOrder_order h.edges_inBounds).nodup
  order_forward := by
    intro a b before after hlink horder
    have hready := readyOrder_order h.edges_inBounds
    rw [show (Condensation.of g.readers).order = before ++ b :: after from horder] at hready
    exact (hready.mem_before hlink).resolve_left List.not_mem_nil
  mem_nodes_iff := fun _ => mem_evaluationOrder h
  nodes_nodup := evaluationOrder_nodup h
  contiguous := by
    intro id hid
    refine ⟨?_, exists_popped_members h hid⟩
    obtain ⟨before, after, horder⟩ := List.append_of_mem ((mem_order h.edges_inBounds).2 hid)
    refine ⟨before.flatMap (g.members g.condensation), after.flatMap (g.members g.condensation), ?_⟩
    rw [evaluationOrder, show g.condensation.order = before ++ id :: after from horder,
      List.flatMap_append, List.flatMap_cons, List.append_assoc]
  nodes_forward := fun _ _ _ _ hread hne hsplit =>
    mem_before_of_apart h hsplit hread fun _ hu => not_mem_members_of_ne h hne hu

/-- Whatever the edits are that make a graph, its evaluation order is exact. -/
theorem exactOrder_after (edits : List GraphEdit) : (after edits).ExactOrder :=
  (wellFormed_after edits).exactOrder

end DependencyGraph

end Spreadsheet
