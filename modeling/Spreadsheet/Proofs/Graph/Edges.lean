import Mathlib.Data.Multiset.Bind
import Spreadsheet.Proofs.Graph.Arena

/-!
# The edges of a graph as a multiset

Without the order in which edges were added, a graph is a set of nodes and a multiset of edges. The
edits of a graph are then the plain operations on multisets.

Results:
* `edges_connect`, `edges_disconnect`, `edges_disconnectWhere`: one edge more, or those into some
  nodes gone.
* `edges_rename`: the cell renamed at both ends of every edge.
* `count_sourcesOf`: the sources of a node, one for each edge into it.
* `edges_eq_of_sourcesOf`: the edges follow from what each node reads.
-/

namespace Spreadsheet.DependencyGraph

variable {g : DependencyGraph}

/-- The edges of the graph, each with its source first. -/
def edges (g : DependencyGraph) : Multiset (CellKey × CellKey) :=
  (g.keys.flatMap fun u => (g.readersOf u).map (Prod.mk u) : List (CellKey × CellKey))

/-- The cells that `v` reads, one for each edge. -/
def sourcesOf (g : DependencyGraph) (v : CellKey) : Multiset CellKey :=
  (g.edges.filter (·.2 = v)).map Prod.fst

theorem count_map_mk (u a v : CellKey) (l : List CellKey) :
    Multiset.count (u, v) (l.map (Prod.mk a) : Multiset _) = if a = u then l.count v else 0 := by
  induction l with
  | nil => simp
  | cons w l ih =>
    rw [List.map_cons, ← Multiset.cons_coe, Multiset.count_cons, ih, List.count_cons]
    by_cases ha : a = u
    · by_cases hw : w = v
      · simp [ha, hw]
      · simp [ha, hw, Ne.symm hw]
    · simp [ha, Ne.symm ha]

/-- The edges out of each of some different cells, counted. -/
theorem count_flatMap_readersOf {ks : List CellKey} (hks : ks.Nodup) (u v : CellKey) :
    Multiset.count (u, v)
        (ks.flatMap fun a => (g.readersOf a).map (Prod.mk a) : List (CellKey × CellKey)) =
      if u ∈ ks then (g.readersOf u).count v else 0 := by
  rw [← Multiset.coe_bind ks, Multiset.count_bind]
  simp only [count_map_mk, Multiset.map_coe, Multiset.sum_coe]
  by_cases hu : u ∈ ks
  · rw [((List.perm_cons_erase hu).map _).sum_eq, List.map_cons, List.sum_cons, if_pos rfl,
      if_pos hu, List.sum_eq_zero]
    · simp
    · intro n hn
      obtain ⟨a, ha, rfl⟩ := List.mem_map.1 hn
      rw [if_neg (by rintro rfl; exact hks.not_mem_erase ha)]
  · rw [if_neg hu, List.sum_eq_zero]
    intro n hn
    obtain ⟨a, ha, rfl⟩ := List.mem_map.1 hn
    rw [if_neg (by rintro rfl; exact hu ha)]

/-- An edge occurs as often as its target among the readers of its source. -/
theorem count_edges (h : g.WellFormed) (u v : CellKey) :
    g.edges.count (u, v) = (g.readersOf u).count v := by
  rw [edges, count_flatMap_readersOf h.keys_nodup]
  split_ifs with hu
  · rfl
  · simp [h.readersOf_eq_nil hu]

/-- It does no harm to look for edges at more cells than the nodes. -/
theorem edges_eq_flatMap (h : g.WellFormed) {ks : List CellKey} (hks : ks.Nodup)
    (hsub : ∀ k ∈ g.keys, k ∈ ks) :
    g.edges = (ks.flatMap fun a => (g.readersOf a).map (Prod.mk a) : List (CellKey × CellKey)) := by
  ext ⟨u, v⟩
  rw [count_edges h, count_flatMap_readersOf hks]
  split_ifs with hu
  · rfl
  · simp [h.readersOf_eq_nil (mt (hsub u) hu)]

theorem mem_edges_iff (h : g.WellFormed) {u v : CellKey} :
    (u, v) ∈ g.edges ↔ v ∈ g.readersOf u := by
  rw [← Multiset.count_pos, count_edges h, List.count_pos_iff]

theorem count_sourcesOf (h : g.WellFormed) (u v : CellKey) :
    (g.sourcesOf v).count u = (g.readersOf u).count v := by
  rw [← count_edges h, sourcesOf, Multiset.count_map, Multiset.filter_filter,
    Multiset.count_eq_card_filter_eq]
  congr 1
  apply Multiset.filter_congr
  rintro ⟨a, b⟩ _
  simp [eq_comm]

/-- A graph has the edges of another one if every node reads the same. -/
theorem edges_eq_of_sourcesOf {g' : DependencyGraph} (h : g.WellFormed) (h' : g'.WellFormed)
    (hsources : ∀ v, g.sourcesOf v = g'.sourcesOf v) : g.edges = g'.edges := by
  ext ⟨u, v⟩
  rw [count_edges h, count_edges h', ← count_sourcesOf h, ← count_sourcesOf h', hsources]

/-- Both ends of an edge are nodes. -/
theorem mem_keys_of_mem_edges (h : g.WellFormed) {u v : CellKey} (he : (u, v) ∈ g.edges) :
    u ∈ g.keys ∧ v ∈ g.keys := by
  rw [mem_edges_iff h] at he
  exact ⟨h.mem_keys_of_readersOf he, mem_keys_of_mem_readersOf he⟩

/-- Only nodes read. -/
theorem sourcesOf_eq_zero (h : g.WellFormed) {key : CellKey} (hkey : key ∉ g.keys) :
    g.sourcesOf key = 0 := by
  rw [sourcesOf, Multiset.map_eq_zero, Multiset.filter_eq_nil]
  rintro ⟨u, v⟩ he rfl
  exact hkey (mem_keys_of_mem_edges h he).2

/-! ## Edits -/

section Edits

variable (h : g.WellFormed)
include h

theorem edges_add (key : CellKey) : (g.add key).edges = g.edges := by
  ext ⟨u, v⟩
  rw [count_edges (h.add key), count_edges h, readersOf_add h]

theorem edges_connect (source reader : CellKey) :
    (g.connect source reader).edges = g.edges + {(source, reader)} := by
  ext ⟨u, v⟩
  rw [Multiset.count_add, count_edges (h.connect source reader), count_edges h,
    readersOf_connect h, Multiset.count_singleton]
  by_cases hu : u = source
  · rw [if_pos hu, List.count_append, List.count_singleton]
    by_cases hv : v = reader
    · simp [hu, hv]
    · simp [hu, hv, Ne.symm hv]
  · simp [hu]

theorem edges_disconnect (reader : CellKey) :
    (g.disconnect reader).edges = g.edges.filter (·.2 ≠ reader) := by
  ext ⟨u, v⟩
  rw [Multiset.count_filter, count_edges (h.disconnect reader), count_edges h,
    readersOf_disconnect h]
  by_cases hv : v = reader
  · simp [hv, List.count_eq_zero]
  · simp [hv, List.count_filter]

theorem edges_disconnectWhere (p : CellKey → Bool) :
    (g.disconnectWhere p).edges = g.edges.filter (fun e => ¬ p e.2) := by
  ext ⟨u, v⟩
  rw [Multiset.count_filter, count_edges (h.disconnectWhere p), count_edges h,
    readersOf_disconnectWhere]
  by_cases hv : p v
  · simp [hv, List.count_eq_zero]
  · simp [hv, List.count_filter]

theorem edges_rename {source target : CellKey} (hs : source ∈ g.keys) (hne : source ≠ target) :
    (g.rename source target).edges =
      g.edges.map (Prod.map (renamed source target) (renamed source target)) := by
  -- Both graphs are looked at through `source`, `target` and the other nodes.
  let rest := g.keys.filter fun k => k ≠ source ∧ k ≠ target
  have hrest : (source :: target :: rest).Nodup := by
    simp [rest, hne, h.keys_nodup.filter]
  have hmem : ∀ k, k ∈ g.keys ∨ k = target → k ∈ source :: target :: rest := by
    intro k hk
    by_cases hks : k = source
    · simp [hks]
    · by_cases hkt : k = target
      · simp [hkt]
      · simp [rest, hks, hkt, hk.resolve_right hkt]
  have hleft := edges_eq_flatMap (h.rename source target) hrest fun k hk => by
    rw [keys_rename h hs hne] at hk
    exact hmem k (mem_insertKey.1 (List.mem_of_mem_erase hk))
  have hright := edges_eq_flatMap h hrest fun k hk => hmem k (.inl hk)
  have hothers : (rest.flatMap fun a => ((g.rename source target).readersOf a).map (Prod.mk a)) =
      (rest.flatMap fun a => (g.readersOf a).map (Prod.mk a)).map
        (Prod.map (renamed source target) (renamed source target)) := by
    rw [List.map_flatMap]
    apply List.flatMap_congr
    intro a ha
    obtain ⟨has, hat⟩ : a ≠ source ∧ a ≠ target := by simpa using (List.mem_filter.1 ha).2
    rw [readersOf_rename h hs hne, if_neg has, if_neg hat, List.map_map, List.map_map]
    apply List.map_congr_left
    intro v _
    simp [renamed, has]
  rw [hleft, hright, Multiset.map_coe, List.flatMap_cons, List.flatMap_cons, List.flatMap_cons,
    List.flatMap_cons, hothers, readersOf_rename h hs hne, readersOf_rename h hs hne, if_pos rfl,
    if_neg (Ne.symm hne), if_pos rfl, Multiset.coe_eq_coe]
  simp only [List.map_nil, List.nil_append, List.map_append, List.map_map, ← List.append_assoc]
  apply List.Perm.append_right
  have hend (a : CellKey) (ha : renamed source target a = target) :
      Prod.map (renamed source target) (renamed source target) ∘ Prod.mk a =
        Prod.mk target ∘ renamed source target := by
    funext v
    simp [ha]
  rw [hend source (by simp [renamed]), hend target (by simp [renamed, Ne.symm hne])]
  exact List.perm_append_comm

end Edits

end Spreadsheet.DependencyGraph
