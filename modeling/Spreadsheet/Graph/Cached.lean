import Spreadsheet.Graph.Order

/-!
# A graph with its condensation at hand

Components and order are computed when they are first asked for and kept until the graph changes.
An edit that leaves the graph as it is keeps them.

* `add`, `connect`, `disconnect`, `disconnectWhere` and `rename` edit the graph.
* `ask` and `askAt` answer a question about components or order.
-/

namespace Spreadsheet

/-- A graph, with the condensation that was computed last unless the graph has changed since
    (`DepGraph`). -/
structure CachedGraph where
  graph : DependencyGraph
  cache : Option Condensation

namespace CachedGraph

/-- The graph without nodes. -/
def empty : CachedGraph :=
  ⟨∅, none⟩

instance : EmptyCollection CachedGraph := ⟨empty⟩

/-! ## Edits -/

/-- The graph with `key` among its nodes, and whether it has become one (`add_node`). -/
def add (g : CachedGraph) (key : CellKey) : Bool × CachedGraph :=
  if g.graph.contains key then (false, g)
  else (true, ⟨g.graph.add key, none⟩)

/-- The graph with one more edge (`add_edge`); its ends become nodes, `source` first. -/
def connect (g : CachedGraph) (source reader : CellKey) : CachedGraph :=
  ⟨g.graph.connect source reader, none⟩

/-- The graph without the edges into `reader` (`clear_refs`). -/
def disconnect (g : CachedGraph) (reader : CellKey) : CachedGraph :=
  if g.graph.contains reader then ⟨g.graph.disconnect reader, none⟩
  else g

/-- The graph without the edges into nodes that satisfy `p` (`clear_refs_where`). -/
def disconnectWhere (g : CachedGraph) (p : CellKey → Bool) : CachedGraph :=
  if g.graph.keys.any p then ⟨g.graph.disconnectWhere p, none⟩
  else g

/-- The node `source` merged into `target`, and whether there was a node `source`
    (`rename_cell`). -/
def rename (g : CachedGraph) (source target : CellKey) : Bool × CachedGraph :=
  if !g.graph.contains source then (false, g)
  else if source = target then (true, g)
  else (true, ⟨g.graph.rename source target, none⟩)

/-! ## Questions -/

/-- The condensation, computed only if none is at hand (`condensation`). -/
def condense (g : CachedGraph) : Condensation × CachedGraph :=
  match g.cache with
  | some c => (c, g)
  | none =>
    let c := g.graph.condensation
    (c, { g with cache := some c })

/-- Answers a question about the components or the order. -/
def ask {α : Type} (g : CachedGraph) (question : DependencyGraph → Condensation → α) :
    α × CachedGraph :=
  let (c, g) := g.condense
  (question g.graph c, g)

/-- Answers a question about the component of a node. Without the node there is no answer, and
    nothing is computed. -/
def askAt {α : Type} (g : CachedGraph) (key : CellKey)
    (question : DependencyGraph → Condensation → CellKey → α) : Option α × CachedGraph :=
  if g.graph.contains key then
    let (answer, g) := g.ask (question · · key)
    (some answer, g)
  else
    (none, g)

end CachedGraph

end Spreadsheet
