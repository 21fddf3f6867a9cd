import Spreadsheet.Graph.Components
import Std.Data.TreeSet

/-!
# Evaluation order

The components of a graph and the edges between them have no cycles. Kahn's algorithm puts them in
an order in which every edge leads forward.

* `componentLinks` are the edges between components, each once and in ascending order.
* `kahn` is the order: components without open predecessors wait in a queue, first come, first
  served.
* `Condensation` holds all of it for one graph, so that it is computed once for each edit.
* `Waiting.weight` falls with each step of `kahn`, which is why it ends.
-/

namespace Spreadsheet

/-! ## Edges between components -/

/-- The components that the edges of a component lead to, other than itself, in ascending order (an
    entry of `dag` in `build_dag`). -/
def linksOf (edges : Adjacency) (owner : Array Nat) (component : Nat) (members : List Nat) :
    List Nat :=
  let targets := (members.flatMap edges.next).map fun w => owner[w]?.getD 0
  (Std.TreeSet.ofList (targets.filter (· != component))).toList

/-- For each component the components that its edges lead to (`build_dag`). -/
def componentLinks (edges : Adjacency) (components : Array (List Nat)) (owner : Array Nat) :
    Adjacency :=
  components.mapIdx (linksOf edges owner)

/-! ## Kahn's algorithm -/

/-- The state of the algorithm (the variables of `kahn`). -/
structure Waiting where
  /-- For each node the number of its edges from nodes that have not been taken. -/
  pending : Array Nat
  /-- The nodes that may be taken, in the order in which they became ready. -/
  ready : List Nat

namespace Waiting

/-- The number of edges into each node. -/
def countInto (links : Adjacency) : Array Nat :=
  links.foldl (fun counts targets => targets.foldl (fun counts t => counts.modify t (· + 1)) counts)
    (Array.replicate links.size 0)

/-- The state before the first node is taken: the nodes without edges into them are ready, in
    ascending order. -/
def start (links : Adjacency) : Waiting :=
  let counts := countInto links
  ⟨counts, (List.range links.size).filter (counts[·]? == some 0)⟩

/-- One edge into `t` less. After its last one `t` is ready. -/
def release (w : Waiting) (t : Nat) : Waiting :=
  match w.pending[t]? with
  | some 1 => ⟨w.pending.setIfInBounds t 0, w.ready ++ [t]⟩
  | some (n + 2) => { w with pending := w.pending.setIfInBounds t (n + 1) }
  | _ => w

/-- The number of edges that are counted in a list. -/
def total : List Nat → Nat
  | [] => 0
  | n :: counts => n + total counts

/-- The number of open edges and ready nodes. -/
def weight (w : Waiting) : Nat :=
  total w.pending.toList + w.ready.length

theorem total_set_add {l : List Nat} {i a : Nat} (h : i < l.length) :
    total (l.set i a) + l[i] = total l + a := by
  induction l generalizing i with
  | nil => simp at h
  | cons n l ih =>
    cases i with
    | zero => simp only [List.set_cons_zero, total, List.getElem_cons_zero]; omega
    | succ i =>
      have := ih (Nat.lt_of_succ_lt_succ h)
      simp only [List.set_cons_succ, total, List.getElem_cons_succ]
      omega

theorem weight_release_le (w : Waiting) (t : Nat) : (w.release t).weight ≤ w.weight := by
  unfold release
  split
  · rename_i h
    obtain ⟨ht, heq⟩ := Array.getElem?_eq_some_iff.1 h
    have htotal := total_set_add (l := w.pending.toList) (a := 0) ht
    simp only [Array.getElem_toList, heq] at htotal
    simp only [weight, Array.toList_setIfInBounds, List.length_append, List.length_singleton]
    omega
  · rename_i n h
    obtain ⟨ht, heq⟩ := Array.getElem?_eq_some_iff.1 h
    have htotal := total_set_add (l := w.pending.toList) (a := n + 1) ht
    simp only [Array.getElem_toList, heq] at htotal
    simp only [weight, Array.toList_setIfInBounds]
    omega
  · exact Nat.le_refl _

theorem weight_foldl_release_le (targets : List Nat) (w : Waiting) :
    (targets.foldl release w).weight ≤ w.weight := by
  induction targets generalizing w with
  | nil => exact Nat.le_refl _
  | cons t targets ih => exact Nat.le_trans (ih _) (weight_release_le ..)

/-- Takes ready nodes, the first one first, until none is ready (the loop of `kahn`). -/
def takeAll (links : Adjacency) (w : Waiting) : List Nat :=
  match _h : w.ready with
  | [] => []
  | v :: rest => v :: takeAll links ((links.next v).foldl release { w with ready := rest })
termination_by w.weight
decreasing_by
  refine Nat.lt_of_le_of_lt (weight_foldl_release_le ..) ?_
  simp [weight, _h]

end Waiting

/-- An order of the nodes in which every edge leads forward, if there is one (`kahn`). -/
def kahn (links : Adjacency) : List Nat :=
  (Waiting.start links).takeAll links

/-! ## Condensation -/

/-- The components of a graph, the edges between them and their order (`Condensation`). -/
structure Condensation where
  /-- The nodes of each component, in order of completion. -/
  components : Array (List Nat)
  /-- The component of each node. -/
  owner : Array Nat
  /-- The edges between components. -/
  links : Adjacency
  /-- The components in evaluation order. -/
  order : List Nat

/-- The nodes of a component. -/
def Condensation.membersOf (c : Condensation) (id : Nat) : List Nat :=
  c.components[id]?.getD []

/-- The condensation of a graph (`condense`). -/
def Condensation.of (edges : Adjacency) : Condensation :=
  let search := searchAll edges
  let owner := search.owner
  let links := componentLinks edges search.done owner
  ⟨search.done, owner, links, kahn links⟩

namespace DependencyGraph

/-- The condensation of the graph as it is now (`condensation`). -/
def condensation (g : DependencyGraph) : Condensation :=
  Condensation.of g.readers

/-- The number of the component of a node (`scc_id`). -/
def componentId? (g : DependencyGraph) (c : Condensation) (key : CellKey) : Option Nat :=
  g.slots[key]?.bind (c.owner[·]?)

/-- The nodes of the component with this number (`scc_members`). -/
def members (g : DependencyGraph) (c : Condensation) (id : Nat) : List CellKey :=
  g.keysAt (c.membersOf id)

/-- The nodes of the component of `key` (`component_of`); none if `key` is not a node. -/
def componentOf (g : DependencyGraph) (c : Condensation) (key : CellKey) : List CellKey :=
  match g.componentId? c key with
  | none => []
  | some id => g.members c id

/-- The node lies on a cycle (`in_cycle`): its component has another node, or it reads itself. -/
def inCycle (g : DependencyGraph) (c : Condensation) (key : CellKey) : Bool :=
  match g.slots[key]? with
  | none => false
  | some id =>
    1 < (c.membersOf (c.owner[id]?.getD 0)).length || (g.readers.next id).contains id

/-- All nodes in evaluation order (`topo_order`); the nodes of a component stand together. -/
def evaluationOrder (g : DependencyGraph) (c : Condensation) : List CellKey :=
  c.order.flatMap (g.members c)

/-- The nodes on cycles, in evaluation order (`cycle_members`). -/
def cycleMembers (g : DependencyGraph) (c : Condensation) : List CellKey :=
  (g.evaluationOrder c).filter (g.inCycle c)

end DependencyGraph

end Spreadsheet
