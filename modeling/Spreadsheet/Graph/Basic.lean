import Spreadsheet.CellKey
import Std.Data.HashMap

/-!
# The dependency graph

The nodes are cells. An edge from `a` to `b` says that `b` reads `a`, so `a` is evaluated first. A
formula that names a cell twice reads it by two edges.

Nodes live in slots `0, 1, …` in the order in which they were created; edges are lists of slots in
the order in which they were added.

* `DependencyGraph.add`, `connect`, `disconnect`, `disconnectWhere` and `rename` are the edits.
* `keys`, `contains` and `readersOf` show the graph without its slots.
-/

namespace Spreadsheet

/-- For each slot the slots that its edges lead to. -/
abbrev Adjacency := Array (List Nat)

/-- The slots that the edges of `v` lead to. -/
def Adjacency.next (edges : Adjacency) (v : Nat) : List Nat :=
  edges[v]?.getD []

/-- A graph of cells (`DepGraph`). -/
structure DependencyGraph where
  /-- The slot of each node. -/
  slots : Std.HashMap CellKey Nat
  /-- The node of each slot. -/
  nodes : Array CellKey
  /-- For each slot the slots of its readers. -/
  readers : Adjacency

namespace DependencyGraph

/-- The graph without nodes (`new`). -/
def empty : DependencyGraph :=
  ⟨∅, #[], #[]⟩

instance : EmptyCollection DependencyGraph := ⟨empty⟩

/-! ## Views -/

/-- The number of nodes (`len`). -/
def size (g : DependencyGraph) : Nat :=
  g.slots.size

/-- The nodes in order of creation (`nodes`). -/
def keys (g : DependencyGraph) : List CellKey :=
  g.nodes.toList

/-- The cell is a node (`contains`). -/
def contains (g : DependencyGraph) (key : CellKey) : Bool :=
  g.slots.contains key

/-- The nodes in these slots. -/
def keysAt (g : DependencyGraph) (ids : List Nat) : List CellKey :=
  ids.filterMap (g.nodes[·]?)

/-- The cells that read `key`, one for each edge, in the order in which the edges were added
    (`successors`). -/
def readersOf (g : DependencyGraph) (key : CellKey) : List CellKey :=
  match g.slots[key]? with
  | none => []
  | some id => g.keysAt (g.readers.next id)

/-! ## Adding nodes and edges -/

/-- A new slot for a cell that is not a node (`alloc`). -/
def allocate (g : DependencyGraph) (key : CellKey) : DependencyGraph :=
  ⟨g.slots.insert key g.nodes.size, g.nodes.push key, g.readers.push []⟩

/-- The graph with `key` among its nodes, and the slot of `key` (`id_or_alloc`). -/
def slotOf (g : DependencyGraph) (key : CellKey) : DependencyGraph × Nat :=
  match g.slots[key]? with
  | some id => (g, id)
  | none => (g.allocate key, g.nodes.size)

/-- The graph with `key` among its nodes (`add_node`). -/
def add (g : DependencyGraph) (key : CellKey) : DependencyGraph :=
  (g.slotOf key).1

/-- The graph with one more edge (`add_edge`); its ends become nodes, `source` first. -/
def connect (g : DependencyGraph) (source reader : CellKey) : DependencyGraph :=
  let (g, s) := g.slotOf source
  let (g, r) := g.slotOf reader
  { g with readers := g.readers.modify s (· ++ [r]) }

/-! ## Removing edges -/

/-- The graph without the edges into `reader` (`clear_refs`). -/
def disconnect (g : DependencyGraph) (reader : CellKey) : DependencyGraph :=
  match g.slots[reader]? with
  | none => g
  | some r => { g with readers := g.readers.map (·.filter (· != r)) }

/-- The graph without the edges into nodes that satisfy `p` (`clear_refs_where`). -/
def disconnectWhere (g : DependencyGraph) (p : CellKey → Bool) : DependencyGraph :=
  let doomed := g.nodes.map p
  { g with readers := g.readers.map (·.filter fun r => !doomed[r]?.getD false) }

/-! ## Renaming nodes -/

/-- The slot of `id` after slot `gone` has been closed up. -/
def closeUp (gone id : Nat) : Nat :=
  if gone < id then id - 1 else id

/-- The node `source` merged into `target` (`rename_cell`): `target` takes over its edges, after its
    own, and every edge into it. A graph without `source` stays as it is. -/
def rename (g : DependencyGraph) (source target : CellKey) : DependencyGraph :=
  match g.slots[source]? with
  | none => g
  | some gone =>
    if source = target then g
    else
      let (g, kept) := g.slotOf target
      let moved := g.readers.next gone
      let place id := if id == gone then closeUp gone kept else closeUp gone id
      { slots := (g.slots.erase source).map fun _ id => closeUp gone id
        nodes := g.nodes.eraseIdxIfInBounds gone
        readers :=
          ((g.readers.modify kept (· ++ moved)).eraseIdxIfInBounds gone).map (·.map place) }

end DependencyGraph

end Spreadsheet
