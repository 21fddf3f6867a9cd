import Spreadsheet.Proofs.Graph.Exactness

/-!
# A graph is a list of nodes with their readers

A graph keeps its nodes in slots and its edges as lists of slots, and closes the slots up when a
node goes. What it shows is what a plain list of nodes shows, each with the list of its readers,
under the same edits.

Results:
* `Listing` and its edits are the plain list, `DependencyGraph.listing` is that of a graph.
* `listing_add`, `listing_connect`, `listing_disconnect`, `listing_disconnectWhere`,
  `listing_rename`: each edit of a graph is the edit of its list.
* `listing_after`: the list of the graph after any edits is the list after them.
-/

namespace Spreadsheet

open DependencyGraph (insertKey renamed)

/-! ## Lists of nodes with their readers -/

/-- The nodes of a graph in order of creation, each with its readers in the order in which the edges
    were added. -/
abbrev Listing := List (CellKey × List CellKey)

namespace Listing

/-- The nodes. -/
def keys (m : Listing) : List CellKey :=
  m.map Prod.fst

/-- The readers of a node; none if `key` is not a node. -/
def readersOf (m : Listing) (key : CellKey) : List CellKey :=
  (m.lookup key).getD []

/-- The list with all lists of readers edited. -/
def mapReaders (f : List CellKey → List CellKey) (m : Listing) : Listing :=
  m.map fun e => (e.1, f e.2)

/-- The list with more readers of one node, after its own. -/
def moreReaders (key : CellKey) (more : List CellKey) (m : Listing) : Listing :=
  m.map fun e => if e.1 = key then (e.1, e.2 ++ more) else e

/-- The list with `key` among its nodes, the last one if it is new. -/
def add (m : Listing) (key : CellKey) : Listing :=
  if key ∈ m.keys then m else m ++ [(key, [])]

/-- The list with one more reader of `source`. Both become nodes, `source` first. -/
def connect (m : Listing) (source reader : CellKey) : Listing :=
  moreReaders source [reader] ((m.add source).add reader)

/-- The list with `reader` struck out of all lists of readers. -/
def disconnect (m : Listing) (reader : CellKey) : Listing :=
  m.mapReaders (·.filter (· ≠ reader))

/-- The list with all nodes that satisfy `p` struck out, one after the other. -/
def disconnectWhere (m : Listing) (p : CellKey → Bool) : Listing :=
  (m.keys.filter p).foldl disconnect m

/-- The list with the node `source` merged into `target`. The readers of `source` come after those
    of `target`, which becomes the last node if it is new; `source` goes, and `target` takes its
    place among the readers. -/
def rename (m : Listing) (source target : CellKey) : Listing :=
  if source ∈ m.keys ∧ source ≠ target then
    mapReaders (·.map (renamed source target))
      ((moreReaders target (m.readersOf source) (m.add target)).filter (·.1 ≠ source))
  else
    m

/-- What an edit makes of the list. -/
def apply (m : Listing) : GraphEdit → Listing
  | .add key => m.add key
  | .connect source reader => m.connect source reader
  | .disconnect reader => m.disconnect reader
  | .disconnectWhere p => m.disconnectWhere p
  | .rename source target => m.rename source target

/-- The list that edits make of the empty one. -/
def after (edits : List GraphEdit) : Listing :=
  edits.foldl apply []

/-! ## Lists from a function -/

/-- The list of these nodes, with the readers that `f` gives. -/
def ofFn (keys : List CellKey) (f : CellKey → List CellKey) : Listing :=
  keys.map fun key => (key, f key)

section OfFn

variable {nodes : List CellKey} {f f' : CellKey → List CellKey}

theorem ofFn_congr (h : ∀ key ∈ nodes, f key = f' key) : ofFn nodes f = ofFn nodes f' :=
  List.map_congr_left fun key hkey => by rw [h key hkey]

@[simp]
theorem keys_ofFn : (ofFn nodes f).keys = nodes := by
  rw [keys, ofFn, List.map_map]
  exact List.map_id nodes

theorem readersOf_ofFn {key : CellKey} (hkey : key ∈ nodes) :
    (ofFn nodes f).readersOf key = f key := by
  suffices h : (ofFn nodes f).lookup key = some (f key) by rw [readersOf, h, Option.getD_some]
  induction nodes with
  | nil => exact absurd hkey List.not_mem_nil
  | cons node nodes ih =>
    rw [ofFn, List.map_cons, List.lookup_cons]
    by_cases heq : key = node
    · simp [heq]
    · rw [beq_false_of_ne heq]
      exact ih ((List.mem_cons.1 hkey).resolve_left heq)

theorem readersOf_ofFn_of_notMem {key : CellKey} (hkey : key ∉ nodes) :
    (ofFn nodes f).readersOf key = [] := by
  have hnone : (ofFn nodes f).lookup key = none := by
    rw [List.lookup_eq_none_iff]
    intro e he
    obtain ⟨node, hnode, rfl⟩ := List.mem_map.1 he
    have hne : key ≠ node := fun heq => hkey (heq ▸ hnode)
    exact bne_iff_ne.2 hne
  rw [readersOf, hnone, Option.getD_none]

theorem mapReaders_ofFn (φ : List CellKey → List CellKey) :
    (ofFn nodes f).mapReaders φ = ofFn nodes fun key => φ (f key) := by
  rw [mapReaders, ofFn, List.map_map]
  rfl

theorem moreReaders_ofFn (key : CellKey) (more : List CellKey) :
    (ofFn nodes f).moreReaders key more =
      ofFn nodes fun k => if k = key then f k ++ more else f k := by
  rw [moreReaders, ofFn, List.map_map]
  apply List.map_congr_left
  intro k _
  by_cases hk : k = key
  · simp [hk]
  · simp [hk]

theorem filter_ofFn (source : CellKey) :
    (ofFn nodes f).filter (·.1 ≠ source) = ofFn (nodes.filter (· ≠ source)) f := by
  rw [ofFn, List.filter_map]
  rfl

theorem add_ofFn {key : CellKey} (hkey : key ∉ nodes → f key = []) :
    (ofFn nodes f).add key = ofFn (insertKey nodes key) f := by
  rw [add, keys_ofFn, insertKey]
  split
  · rfl
  · rename_i hnot
    rw [ofFn, ofFn, List.map_append, List.map_singleton, hkey hnot]

/-- Striking nodes out one after the other strikes all of them out. -/
theorem foldl_disconnect_ofFn (gone : List CellKey) :
    gone.foldl disconnect (ofFn nodes f) = ofFn nodes fun key => (f key).filter (· ∉ gone) := by
  induction gone generalizing f with
  | nil => simp
  | cons reader gone ih =>
    rw [List.foldl_cons, disconnect, mapReaders_ofFn, ih]
    apply ofFn_congr
    intro key _
    rw [List.filter_filter]
    apply List.filter_congr
    intro v _
    simp [Bool.and_comm]

end OfFn

end Listing

/-! ## The list of a graph -/

namespace DependencyGraph

variable {g : DependencyGraph}

/-- The nodes of a graph with their readers. -/
def listing (g : DependencyGraph) : Listing :=
  .ofFn g.keys g.readersOf

theorem keys_listing : g.listing.keys = g.keys :=
  Listing.keys_ofFn

/-- Nothing is renamed that is not a node, or to itself. -/
theorem rename_eq_self {source target : CellKey} (h : g.contains source → source = target) :
    g.rename source target = g := by
  rw [rename]
  rcases hs : g.slots[source]? with _ | gone
  · rfl
  · have heq := h (contains_iff_slot.2 ⟨gone, hs⟩)
    simp only [heq, if_true]

section Edits

variable (h : g.WellFormed)
include h

theorem readersOf_listing (key : CellKey) : g.listing.readersOf key = g.readersOf key := by
  by_cases hkey : key ∈ g.keys
  · exact Listing.readersOf_ofFn hkey
  · rw [h.readersOf_eq_nil hkey]
    exact Listing.readersOf_ofFn_of_notMem hkey

theorem listing_add (key : CellKey) : (g.add key).listing = g.listing.add key := by
  rw [listing, listing, Listing.add_ofFn h.readersOf_eq_nil, keys_add h]
  exact Listing.ofFn_congr fun k _ => readersOf_add h key k

theorem listing_connect (source reader : CellKey) :
    (g.connect source reader).listing = g.listing.connect source reader := by
  have hadded := h.add source
  rw [Listing.connect, ← listing_add h, ← listing_add hadded, listing, listing,
    Listing.moreReaders_ofFn, keys_connect h, keys_add hadded, keys_add h]
  apply Listing.ofFn_congr
  intro key _
  rw [readersOf_connect h, readersOf_add hadded, readersOf_add h]

theorem listing_disconnect (reader : CellKey) :
    (g.disconnect reader).listing = g.listing.disconnect reader := by
  rw [Listing.disconnect, listing, listing, Listing.mapReaders_ofFn, keys_disconnect]
  exact Listing.ofFn_congr fun key _ => readersOf_disconnect h reader key

omit h in
theorem listing_disconnectWhere (p : CellKey → Bool) :
    (g.disconnectWhere p).listing = g.listing.disconnectWhere p := by
  rw [Listing.disconnectWhere, keys_listing, listing, listing, Listing.foldl_disconnect_ofFn,
    keys_disconnectWhere]
  apply Listing.ofFn_congr
  intro key _
  rw [readersOf_disconnectWhere]
  apply List.filter_congr
  intro v hv
  -- readers are nodes, so a reader is struck out iff it satisfies `p`
  simp [mem_keys_of_mem_readersOf hv]

theorem listing_rename (source target : CellKey) :
    (g.rename source target).listing = g.listing.rename source target := by
  rw [Listing.rename, keys_listing, readersOf_listing h]
  split
  · rename_i hboth
    obtain ⟨hs, hne⟩ := hboth
    have hnodup := (h.add target).keys_nodup
    rw [keys_add h] at hnodup
    rw [listing, listing, Listing.add_ofFn h.readersOf_eq_nil, Listing.moreReaders_ofFn,
      Listing.filter_ofFn, Listing.mapReaders_ofFn, keys_rename h hs hne, hnodup.erase_eq_filter]
    have hkeys : (insertKey g.keys target).filter (· != source) =
        (insertKey g.keys target).filter (· ≠ source) :=
      List.filter_congr fun key _ => by rw [Bool.eq_iff_iff]; simp
    rw [hkeys]
    apply Listing.ofFn_congr
    intro key hkey
    have hkept : key ≠ source := by simpa using (List.mem_filter.1 hkey).2
    rw [readersOf_rename h hs hne, if_neg hkept]
    by_cases ht : key = target
    · rw [if_pos ht, if_pos ht, ht]
    · rw [if_neg ht, if_neg ht]
  · rename_i hnot
    rw [rename_eq_self fun hs => by_contra fun hne => hnot ⟨h.contains_iff.1 hs, hne⟩]

/-- An edit of a graph is the edit of its list. -/
theorem listing_apply (edit : GraphEdit) : (edit.apply g).listing = g.listing.apply edit := by
  cases edit with
  | add key => exact listing_add h key
  | connect source reader => exact listing_connect h source reader
  | disconnect reader => exact listing_disconnect h reader
  | disconnectWhere p => exact listing_disconnectWhere p
  | rename source target => exact listing_rename h source target

theorem listing_foldl_apply (edits : List GraphEdit) :
    (edits.foldl GraphEdit.apply g).listing = edits.foldl Listing.apply g.listing := by
  induction edits generalizing g with
  | nil => rfl
  | cons edit edits ih =>
    rw [List.foldl_cons, List.foldl_cons, ih (h.apply edit), listing_apply h]

end Edits

/-- The graph after any edits is listed by the list after them. -/
theorem listing_after (edits : List GraphEdit) : (after edits).listing = Listing.after edits :=
  listing_foldl_apply wellFormed_empty edits

/-- The number of nodes is the length of the list. -/
theorem size_eq_length_keys (h : g.WellFormed) : g.size = g.keys.length :=
  size_eq_length h.keys_nodup fun _ => h.mem_keys_iff_slot

end DependencyGraph

end Spreadsheet
