import Mathlib.Data.List.Nodup
import Spreadsheet.Graph.Basic

/-!
# The graph without its slots

Slots are an arrangement: what a graph says is which cells are nodes, in which order they were
created, and which cells read each of them. Every edit of a graph is one equation on `keys` and one
on `readersOf`.

Results:
* `WellFormed`: slots and nodes are inverse to each other, and edges lead to slots in use. Every
  edit keeps it.
* `keys_add`, `keys_connect`, `keys_disconnect`, `keys_rename` and their companions for
  `readersOf`: the effect of each edit.
-/

namespace Spreadsheet

/-- A map has as many entries as it has keys. -/
theorem size_eq_length {α β : Type} [BEq α] [LawfulBEq α] [Hashable α] {m : Std.HashMap α β}
    {keys : List α} (hnodup : keys.Nodup) (h : ∀ key, key ∈ keys ↔ ∃ v, m[key]? = some v) :
    m.size = keys.length := by
  have hperm : m.keys.Perm keys := by
    rw [List.perm_ext_iff_of_nodup Std.HashMap.nodup_keys hnodup]
    intro key
    rw [Std.HashMap.mem_keys, Std.HashMap.mem_iff_isSome_getElem?, Option.isSome_iff_exists, h]
  rw [← Std.HashMap.length_keys, hperm.length_eq]

namespace DependencyGraph

variable {g : DependencyGraph}

/-! ## Well-formed graphs -/

/-- Every node has exactly one slot, a list of readers, and readers that are nodes. -/
structure WellFormed (g : DependencyGraph) : Prop where
  slots_iff : ∀ (key : CellKey) (id : Nat), g.slots[key]? = some id ↔ g.nodes[id]? = some key
  size_eq : g.readers.size = g.nodes.size
  inBounds : ∀ id, ∀ r ∈ g.readers.next id, r < g.nodes.size

theorem wellFormed_empty : WellFormed ∅ := by
  constructor
  · intro key id
    simp [EmptyCollection.emptyCollection, empty]
  · rfl
  · intro id r hr
    simp [EmptyCollection.emptyCollection, empty, Adjacency.next] at hr

theorem mem_keys_iff {key : CellKey} : key ∈ g.keys ↔ ∃ id : Nat, g.nodes[id]? = some key := by
  rw [keys, Array.mem_toList_iff, Array.mem_iff_getElem?]

theorem contains_iff_slot {key : CellKey} : g.contains key ↔ ∃ id, g.slots[key]? = some id := by
  rw [contains, ← Std.HashMap.mem_iff_contains, Std.HashMap.mem_iff_isSome_getElem?,
    Option.isSome_iff_exists]

theorem mem_keysAt_iff {ids : List Nat} {key : CellKey} :
    key ∈ g.keysAt ids ↔ ∃ id ∈ ids, g.nodes[id]? = some key :=
  List.mem_filterMap

/-- Slots and cells are left out alike. -/
theorem keysAt_filter {p : Nat → Bool} {q : CellKey → Bool}
    (hpq : ∀ (id : Nat) (key : CellKey), g.nodes[id]? = some key → p id = q key) (ids : List Nat) :
    g.keysAt (ids.filter p) = (g.keysAt ids).filter q := by
  rw [keysAt, keysAt, List.filterMap_filter, List.filter_filterMap]
  apply List.filterMap_congr
  intro id _
  rcases hid : g.nodes[id]? with _ | key
  · simp
  · by_cases hq : q key <;> simp [hpq id key hid, hq, Option.filter]

theorem readersOf_eq {key : CellKey} {id : Nat} (hs : g.slots[key]? = some id) :
    g.readersOf key = g.keysAt (g.readers.next id) := by
  rw [readersOf, hs]

/-- A reader is a node. -/
theorem mem_keys_of_mem_readersOf {u v : CellKey} (hv : v ∈ g.readersOf u) : v ∈ g.keys := by
  unfold readersOf at hv
  split at hv
  · simp at hv
  · obtain ⟨id, -, hid⟩ := mem_keysAt_iff.1 hv
    exact mem_keys_iff.2 ⟨id, hid⟩

namespace WellFormed

variable (h : g.WellFormed)
include h

theorem mem_keys_iff_slot {key : CellKey} : key ∈ g.keys ↔ ∃ id, g.slots[key]? = some id := by
  simp only [mem_keys_iff, h.slots_iff]

theorem slot_eq_none {key : CellKey} (hkey : key ∉ g.keys) : g.slots[key]? = none := by
  rcases hs : g.slots[key]? with _ | id
  · rfl
  · exact absurd (h.mem_keys_iff_slot.2 ⟨id, hs⟩) hkey

theorem contains_iff {key : CellKey} : g.contains key ↔ key ∈ g.keys := by
  rw [contains_iff_slot, h.mem_keys_iff_slot]

theorem slot_lt {key : CellKey} {id : Nat} (hs : g.slots[key]? = some id) : id < g.nodes.size :=
  (Array.getElem?_eq_some_iff.1 ((h.slots_iff key id).1 hs)).1

theorem slot_inj {key : CellKey} {i j : Nat} (hi : g.nodes[i]? = some key)
    (hj : g.nodes[j]? = some key) : i = j := by
  rw [← h.slots_iff] at hi hj
  exact Option.some.inj (hi.symm.trans hj)

/-- Slots are equal where cells are. -/
theorem slot_beq {u v : CellKey} {i j : Nat} (hi : g.nodes[i]? = some u)
    (hj : g.nodes[j]? = some v) : (i == j) = (u == v) := by
  rw [Bool.eq_iff_iff, beq_iff_eq, beq_iff_eq]
  constructor
  · rintro rfl
    exact Option.some.inj (hi.symm.trans hj)
  · rintro rfl
    exact h.slot_inj hi hj

theorem keys_nodup : g.keys.Nodup := by
  rw [keys, List.nodup_iff_getElem?_ne_getElem?]
  intro i j hij hj heq
  rw [Array.getElem?_toList, Array.getElem?_toList] at heq
  have hlt : j < g.nodes.size := by simpa using hj
  have hjs : g.nodes[j]? = some g.nodes[j] := by simp [hlt]
  have := h.slot_inj (heq.trans hjs) hjs
  omega

theorem readersOf_eq_nil {key : CellKey} (hkey : key ∉ g.keys) : g.readersOf key = [] := by
  rw [readersOf, h.slot_eq_none hkey]

/-- A cell with readers is a node. -/
theorem mem_keys_of_readersOf {u v : CellKey} (hv : v ∈ g.readersOf u) : u ∈ g.keys := by
  by_contra hu
  simp [h.readersOf_eq_nil hu] at hv

end WellFormed

/-! ## Adding nodes -/

theorem nodes_allocate (key : CellKey) (id : Nat) :
    (g.allocate key).nodes[id]? = if id = g.nodes.size then some key else g.nodes[id]? := by
  rw [allocate, Array.getElem?_push]

theorem next_allocate (h : g.WellFormed) (key : CellKey) (id : Nat) :
    (g.allocate key).readers.next id = g.readers.next id := by
  rw [allocate, Adjacency.next, Array.getElem?_push, h.size_eq, Adjacency.next]
  by_cases hid : id = g.nodes.size
  · simp [hid, ← h.size_eq]
  · simp [hid]

theorem WellFormed.allocate (h : g.WellFormed) {key : CellKey} (hkey : key ∉ g.keys) :
    (g.allocate key).WellFormed := by
  constructor
  · intro k id
    rw [nodes_allocate]
    simp only [DependencyGraph.allocate, Std.HashMap.getElem?_insert, beq_iff_eq]
    by_cases hk : key = k
    · subst hk
      have hnone : ¬ g.nodes[id]? = some key := fun hid => hkey (mem_keys_iff.2 ⟨id, hid⟩)
      by_cases hid : id = g.nodes.size
      · simp [hid]
      · simp [hid, hnone, Ne.symm hid]
    · by_cases hid : id = g.nodes.size
      · simp [hid, hk, h.slots_iff]
      · simp [hid, hk, h.slots_iff]
  · simp [DependencyGraph.allocate, h.size_eq]
  · intro id r hr
    rw [next_allocate h] at hr
    have := h.inBounds id r hr
    simp only [DependencyGraph.allocate, Array.size_push]
    omega

theorem keysAt_allocate (key : CellKey) {ids : List Nat}
    (hids : ∀ r ∈ ids, r < g.nodes.size) : (g.allocate key).keysAt ids = g.keysAt ids := by
  apply List.filterMap_congr
  intro r hr
  rw [nodes_allocate, if_neg (by have := hids r hr; omega)]

theorem readersOf_allocate (h : g.WellFormed) {key : CellKey} (hkey : key ∉ g.keys)
    (u : CellKey) : (g.allocate key).readersOf u = g.readersOf u := by
  have hslot : (g.allocate key).slots[u]? = if key = u then some g.nodes.size else g.slots[u]? := by
    simp [allocate, Std.HashMap.getElem?_insert]
  by_cases hu : key = u
  · subst hu
    have hsize : g.readers.next g.nodes.size = [] := by
      simp [Adjacency.next, ← h.size_eq]
    rw [h.readersOf_eq_nil hkey, readersOf, hslot, if_pos rfl]
    simp only [next_allocate h, hsize]
    rfl
  · rw [readersOf, hslot, if_neg hu, readersOf]
    rcases hs : g.slots[u]? with _ | id
    · rfl
    · simp only [next_allocate h]
      exact keysAt_allocate key (h.inBounds id)

/-- The nodes with one more at the end, unless it is one already. -/
def insertKey (keys : List CellKey) (key : CellKey) : List CellKey :=
  if key ∈ keys then keys else keys ++ [key]

theorem mem_insertKey {keys : List CellKey} {key k : CellKey} :
    k ∈ insertKey keys key ↔ k ∈ keys ∨ k = key := by
  unfold insertKey
  split_ifs with hkey
  · constructor
    · exact Or.inl
    · rintro (hk | rfl)
      · exact hk
      · exact hkey
  · simp

theorem insertKey_of_mem {keys : List CellKey} {key : CellKey} (h : key ∈ keys) :
    insertKey keys key = keys :=
  if_pos h

/-- What `slotOf` makes of a graph: the same graph with `key` among its nodes. -/
structure SlotOf (g : DependencyGraph) (key : CellKey) (g' : DependencyGraph) (id : Nat) :
    Prop where
  wellFormed : g'.WellFormed
  keys_eq : g'.keys = insertKey g.keys key
  readersOf_eq : ∀ u, g'.readersOf u = g.readersOf u
  slot_eq : g'.slots[key]? = some id
  slot_kept : ∀ (u : CellKey) (i : Nat), g.slots[u]? = some i → g'.slots[u]? = some i

theorem slotOf_spec (h : g.WellFormed) (key : CellKey) :
    SlotOf g key (g.slotOf key).1 (g.slotOf key).2 := by
  rcases hs : g.slots[key]? with _ | id
  · have hkey : key ∉ g.keys := fun hk => by
      obtain ⟨id, hid⟩ := h.mem_keys_iff_slot.1 hk
      simp [hs] at hid
    have heq : g.slotOf key = (g.allocate key, g.nodes.size) := by simp [slotOf, hs]
    rw [heq]
    refine ⟨h.allocate hkey, ?_, readersOf_allocate h hkey, ?_, ?_⟩
    · rw [insertKey, if_neg hkey]
      simp [keys, allocate]
    · simp [allocate]
    · intro u i hu
      have hne : key ≠ u := fun heq => by simp [← heq, hs] at hu
      simp [allocate, Std.HashMap.getElem?_insert, hne, hu]
  · have hkey : key ∈ g.keys := h.mem_keys_iff_slot.2 ⟨id, hs⟩
    have heq : g.slotOf key = (g, id) := by simp [slotOf, hs]
    rw [heq]
    exact ⟨h, by simp [insertKey, hkey], fun _ => rfl, hs, fun _ _ hu => hu⟩

theorem WellFormed.add (h : g.WellFormed) (key : CellKey) : (g.add key).WellFormed :=
  (slotOf_spec h key).wellFormed

theorem keys_add (h : g.WellFormed) (key : CellKey) : (g.add key).keys = insertKey g.keys key :=
  (slotOf_spec h key).keys_eq

theorem readersOf_add (h : g.WellFormed) (key u : CellKey) :
    (g.add key).readersOf u = g.readersOf u :=
  (slotOf_spec h key).readersOf_eq u

/-! ## Adding edges -/

/-- One more reader of the node in slot `s`. -/
def addReader (g : DependencyGraph) (s r : Nat) : DependencyGraph :=
  { g with readers := g.readers.modify s (· ++ [r]) }

theorem next_modify (edges : Adjacency) (f : List Nat → List Nat) {s : Nat} (hs : s < edges.size)
    (id : Nat) : Adjacency.next (edges.modify s f) id =
      if id = s then f (edges.next id) else edges.next id := by
  rw [Adjacency.next, Array.getElem?_modify, Adjacency.next]
  by_cases hid : id = s
  · simp [hid, hs]
  · simp [hid, Ne.symm hid]

section AddReader

variable {source reader : CellKey} {s r : Nat} (h : g.WellFormed)
  (hs : g.slots[source]? = some s) (hr : g.slots[reader]? = some r)
include h hs hr

theorem WellFormed.addReader : (g.addReader s r).WellFormed := by
  constructor
  · exact h.slots_iff
  · simp [DependencyGraph.addReader, h.size_eq]
  · intro id t ht
    simp only [DependencyGraph.addReader] at ht ⊢
    rw [next_modify _ _ (by rw [h.size_eq]; exact h.slot_lt hs)] at ht
    split_ifs at ht
    · rcases List.mem_append.1 ht with ht | ht
      · exact h.inBounds id t ht
      · rw [List.mem_singleton.1 ht]
        exact h.slot_lt hr
    · exact h.inBounds id t ht

theorem readersOf_addReader (u : CellKey) :
    (g.addReader s r).readersOf u =
      if u = source then g.readersOf u ++ [reader] else g.readersOf u := by
  have hnode := (h.slots_iff reader r).1 hr
  rcases hu : g.slots[u]? with _ | id
  · have hne : u ≠ source := fun heq => by simp [heq, hs] at hu
    rw [if_neg hne, readersOf, readersOf]
    simp only [addReader, hu]
  · have hiff : id = s ↔ u = source := by
      constructor
      · rintro rfl
        rw [h.slots_iff] at hu hs
        exact Option.some.inj (hu.symm.trans hs)
      · rintro rfl
        exact Option.some.inj (hu.symm.trans hs)
    rw [readersOf_eq (g := g.addReader s r) hu, readersOf_eq hu]
    simp only [addReader]
    rw [next_modify _ _ (by rw [h.size_eq]; exact h.slot_lt hs)]
    by_cases hid : id = s
    · rw [if_pos hid, if_pos (hiff.1 hid)]
      simp [keysAt, hnode]
    · rw [if_neg hid, if_neg (mt hiff.2 hid)]
      rfl

end AddReader

theorem connect_eq (g : DependencyGraph) (source reader : CellKey) :
    g.connect source reader =
      (((g.slotOf source).1.slotOf reader).1).addReader (g.slotOf source).2
        ((g.slotOf source).1.slotOf reader).2 :=
  rfl

section Connect

variable (h : g.WellFormed) (source reader : CellKey)
include h

theorem WellFormed.connect : (g.connect source reader).WellFormed := by
  have h₁ := slotOf_spec h source
  have h₂ := slotOf_spec h₁.wellFormed reader
  exact h₂.wellFormed.addReader (h₂.slot_kept _ _ h₁.slot_eq) h₂.slot_eq

theorem keys_connect :
    (g.connect source reader).keys = insertKey (insertKey g.keys source) reader := by
  have h₁ := slotOf_spec h source
  have h₂ := slotOf_spec h₁.wellFormed reader
  rw [← h₁.keys_eq, ← h₂.keys_eq]
  rfl

theorem readersOf_connect (u : CellKey) :
    (g.connect source reader).readersOf u =
      if u = source then g.readersOf u ++ [reader] else g.readersOf u := by
  have h₁ := slotOf_spec h source
  have h₂ := slotOf_spec h₁.wellFormed reader
  rw [connect_eq, readersOf_addReader h₂.wellFormed (h₂.slot_kept _ _ h₁.slot_eq) h₂.slot_eq,
    h₂.readersOf_eq, h₁.readersOf_eq]

end Connect

/-! ## Removing edges -/

/-- The graph without the edges into the slots that satisfy `p`. -/
def dropReaders (g : DependencyGraph) (p : Nat → Bool) : DependencyGraph :=
  { g with readers := g.readers.map (·.filter fun r => !p r) }

theorem next_dropReaders (p : Nat → Bool) (id : Nat) :
    (g.dropReaders p).readers.next id = (g.readers.next id).filter fun r => !p r := by
  rw [dropReaders, Adjacency.next, Array.getElem?_map, Adjacency.next]
  rcases g.readers[id]? with _ | l <;> rfl

theorem WellFormed.dropReaders (h : g.WellFormed) (p : Nat → Bool) :
    (g.dropReaders p).WellFormed := by
  constructor
  · exact h.slots_iff
  · simp [DependencyGraph.dropReaders, h.size_eq]
  · intro id r hr
    rw [next_dropReaders] at hr
    exact h.inBounds id r (List.mem_filter.1 hr).1

/-- Slots and cells are dropped alike. -/
theorem readersOf_dropReaders {p : Nat → Bool} {q : CellKey → Bool}
    (hpq : ∀ (r : Nat) (v : CellKey), g.nodes[r]? = some v → p r = q v) (u : CellKey) :
    (g.dropReaders p).readersOf u = (g.readersOf u).filter fun v => !q v := by
  rcases hu : g.slots[u]? with _ | id
  · rw [readersOf, readersOf]
    simp only [dropReaders, hu]
    rfl
  · rw [readersOf_eq (g := g.dropReaders p) hu, readersOf_eq hu, next_dropReaders]
    exact keysAt_filter (fun r v hv => by rw [hpq r v hv]) _

theorem disconnect_eq {reader : CellKey} {r : Nat} (hr : g.slots[reader]? = some r) :
    g.disconnect reader = g.dropReaders (· == r) := by
  simp [disconnect, hr, dropReaders, bne]

theorem disconnect_eq_self {reader : CellKey} (hr : g.slots[reader]? = none) :
    g.disconnect reader = g := by
  simp [disconnect, hr]

theorem WellFormed.disconnect (h : g.WellFormed) (reader : CellKey) :
    (g.disconnect reader).WellFormed := by
  rcases hr : g.slots[reader]? with _ | r
  · rwa [disconnect_eq_self hr]
  · rw [disconnect_eq hr]
    exact h.dropReaders _

theorem keys_disconnect (g : DependencyGraph) (reader : CellKey) :
    (g.disconnect reader).keys = g.keys := by
  unfold DependencyGraph.disconnect
  split <;> rfl

theorem readersOf_disconnect (h : g.WellFormed) (reader u : CellKey) :
    (g.disconnect reader).readersOf u = (g.readersOf u).filter (· ≠ reader) := by
  rcases hr : g.slots[reader]? with _ | r
  · rw [disconnect_eq_self hr, List.filter_eq_self.2]
    intro v hv
    have hne : v ≠ reader := fun heq => by
      obtain ⟨id, hid⟩ := h.mem_keys_iff_slot.1 (mem_keys_of_mem_readersOf hv)
      simp [heq, hr] at hid
    simpa using hne
  · rw [disconnect_eq hr, readersOf_dropReaders (q := (· == reader))]
    · apply List.filter_congr
      intro v _
      rw [Bool.eq_iff_iff]
      simp
    · exact fun i v hv => h.slot_beq hv ((h.slots_iff reader r).1 hr)

theorem disconnectWhere_eq (g : DependencyGraph) (p : CellKey → Bool) :
    g.disconnectWhere p = g.dropReaders fun r => (g.nodes.map p)[r]?.getD false :=
  rfl

theorem WellFormed.disconnectWhere (h : g.WellFormed) (p : CellKey → Bool) :
    (g.disconnectWhere p).WellFormed :=
  h.dropReaders _

theorem keys_disconnectWhere (g : DependencyGraph) (p : CellKey → Bool) :
    (g.disconnectWhere p).keys = g.keys :=
  rfl

theorem readersOf_disconnectWhere (g : DependencyGraph) (p : CellKey → Bool) (u : CellKey) :
    (g.disconnectWhere p).readersOf u = (g.readersOf u).filter fun v => !p v := by
  rw [disconnectWhere_eq, readersOf_dropReaders]
  intro r v hv
  simp [hv]

/-! ## Renaming nodes -/

/-- The cell that takes the place of `key` when `source` is renamed. -/
def renamed (source target key : CellKey) : CellKey :=
  if key = source then target else key

/-- The graph without slot `gone`, whose edges are led to slot `kept` and whose readers are `kept`'s
    in addition. -/
def mergeSlots (g : DependencyGraph) (source : CellKey) (gone kept : Nat) : DependencyGraph :=
  let moved := g.readers.next gone
  let place id := if id == gone then closeUp gone kept else closeUp gone id
  { slots := (g.slots.erase source).map fun _ id => closeUp gone id
    nodes := g.nodes.eraseIdxIfInBounds gone
    readers :=
      ((g.readers.modify kept (· ++ moved)).eraseIdxIfInBounds gone).map (·.map place) }

theorem rename_eq {source target : CellKey} {gone : Nat} (hs : g.slots[source]? = some gone)
    (hne : source ≠ target) :
    g.rename source target = (g.slotOf target).1.mergeSlots source gone (g.slotOf target).2 := by
  simp [rename, hs, hne, mergeSlots]

theorem getElem?_eraseIdxIfInBounds {α : Type} (xs : Array α) (gone i : Nat) :
    (xs.eraseIdxIfInBounds gone)[i]? = if i < gone then xs[i]? else xs[i + 1]? := by
  rw [← Array.getElem?_toList, Array.toList_eraseIdxIfInBounds, List.getElem?_eraseIdx,
    Array.getElem?_toList, Array.getElem?_toList]

/-- Slot `i` of the closed-up array was slot `i` or `i + 1`. -/
theorem getElem?_closeUp {α : Type} (xs : Array α) {gone i : Nat} (hi : i ≠ gone) :
    (xs.eraseIdxIfInBounds gone)[closeUp gone i]? = xs[i]? := by
  rw [getElem?_eraseIdxIfInBounds, closeUp]
  split_ifs with h₁ h₂ h₂
  · omega
  · rw [show i - 1 + 1 = i by omega]
  · rfl
  · omega

theorem exists_closeUp (gone i : Nat) : ∃ j, j ≠ gone ∧ closeUp gone j = i := by
  by_cases hi : i < gone
  · exact ⟨i, by omega, by rw [closeUp, if_neg (by omega)]⟩
  · exact ⟨i + 1, by omega, by rw [closeUp, if_pos (by omega), Nat.add_sub_cancel]⟩

theorem closeUp_inj {gone i j : Nat} (hi : i ≠ gone) (hj : j ≠ gone)
    (h : closeUp gone i = closeUp gone j) : i = j := by
  unfold closeUp at h
  split_ifs at h <;> omega

theorem next_map (edges : Adjacency) (f : Nat → Nat) (id : Nat) :
    Adjacency.next (edges.map (·.map f)) id = (edges.next id).map f := by
  rw [Adjacency.next, Array.getElem?_map, Adjacency.next]
  rcases edges[id]? with _ | l <;> rfl

section MergeSlots

variable {source target : CellKey} {gone kept : Nat} (h : g.WellFormed)
  (hs : g.slots[source]? = some gone) (ht : g.slots[target]? = some kept)
  (hne : source ≠ target)

/-- The slot that stands for slot `id` afterwards. -/
def placeOf (gone kept id : Nat) : Nat :=
  if id == gone then closeUp gone kept else closeUp gone id

theorem nodes_mergeSlots {i : Nat} (hi : i ≠ gone) :
    (g.mergeSlots source gone kept).nodes[closeUp gone i]? = g.nodes[i]? :=
  getElem?_closeUp g.nodes hi

theorem slots_mergeSlots (u : CellKey) :
    (g.mergeSlots source gone kept).slots[u]? =
      if source = u then none else g.slots[u]?.map (closeUp gone) := by
  simp only [mergeSlots, Std.HashMap.getElem?_map, Std.HashMap.getElem?_erase, beq_iff_eq]
  split_ifs with hu
  · rfl
  · rfl

include h hs ht hne

theorem kept_ne_gone : kept ≠ gone := by
  rintro rfl
  rw [h.slots_iff] at hs ht
  exact hne (Option.some.inj (hs.symm.trans ht))

/-- The node that takes the place of a node is in the slot that takes the place of its slot. -/
theorem nodes_placeOf {i : Nat} {v : CellKey} (hv : g.nodes[i]? = some v) :
    (g.mergeSlots source gone kept).nodes[placeOf gone kept i]? =
      some (renamed source target v) := by
  have hsource := (h.slots_iff source gone).1 hs
  by_cases hi : i = gone
  · subst hi
    obtain rfl : v = source := Option.some.inj (hv.symm.trans hsource)
    rw [placeOf, if_pos (by simp), nodes_mergeSlots (kept_ne_gone h hs ht hne), renamed, if_pos rfl]
    exact (h.slots_iff target kept).1 ht
  · have hvs : v ≠ source := by
      rintro rfl
      exact hi (h.slot_inj hv hsource)
    rw [placeOf, if_neg (by simpa using hi), nodes_mergeSlots hi, hv, renamed, if_neg hvs]

omit hs hne in
theorem next_mergeSlots {i : Nat} (hi : i ≠ gone) :
    (g.mergeSlots source gone kept).readers.next (closeUp gone i) =
      ((if i = kept then g.readers.next i ++ g.readers.next gone else g.readers.next i).map
        (placeOf gone kept)) := by
  have hkept : kept < g.readers.size := by
    rw [h.size_eq]
    exact h.slot_lt ht
  have hnext : (g.mergeSlots source gone kept).readers.next (closeUp gone i) =
      (Adjacency.next (g.readers.modify kept (· ++ g.readers.next gone)) i).map
        (placeOf gone kept) := by
    rw [← next_map, Adjacency.next, Adjacency.next, Array.getElem?_map,
      ← getElem?_closeUp _ hi, ← Array.getElem?_map]
    rfl
  rw [hnext, next_modify _ _ hkept]

theorem WellFormed.mergeSlots : (g.mergeSlots source gone kept).WellFormed := by
  have hsource := (h.slots_iff source gone).1 hs
  have hgone : gone < g.nodes.size := h.slot_lt hs
  constructor
  · intro u id
    obtain ⟨i, hi, rfl⟩ := exists_closeUp gone id
    rw [slots_mergeSlots, nodes_mergeSlots hi]
    by_cases hu : source = u
    · subst hu
      have hnot : g.nodes[i]? ≠ some source := fun heq => hi (h.slot_inj heq hsource)
      simp [hnot]
    · rw [if_neg hu, Option.map_eq_some_iff, ← h.slots_iff]
      constructor
      · rintro ⟨j, hj, hji⟩
        have hjg : j ≠ gone := by
          rintro rfl
          exact hu (Option.some.inj (hsource.symm.trans ((h.slots_iff u j).1 hj)))
        rwa [← closeUp_inj hjg hi hji]
      · exact fun hj => ⟨i, hj, rfl⟩
  · simp only [DependencyGraph.mergeSlots, Array.eraseIdxIfInBounds_eq, Array.size_modify,
      h.size_eq, Array.size_map]
    rw [dif_pos hgone, dif_pos hgone]
    simp [h.size_eq]
  · intro id r hr
    obtain ⟨i, hi, rfl⟩ := exists_closeUp gone id
    rw [next_mergeSlots h ht hi] at hr
    obtain ⟨j, hj, rfl⟩ := List.mem_map.1 hr
    have hlt : j < g.nodes.size := by
      split_ifs at hj
      · rcases List.mem_append.1 hj with hj | hj
        · exact h.inBounds _ j hj
        · exact h.inBounds _ j hj
      · exact h.inBounds _ j hj
    have hnode : g.nodes[j]? = some g.nodes[j] := by simp [hlt]
    exact (Array.getElem?_eq_some_iff.1 (nodes_placeOf h hs ht hne hnode)).1

theorem keysAt_map_placeOf {ids : List Nat} (hids : ∀ i ∈ ids, i < g.nodes.size) :
    (g.mergeSlots source gone kept).keysAt (ids.map (placeOf gone kept)) =
      (g.keysAt ids).map (renamed source target) := by
  rw [keysAt, keysAt, List.filterMap_map, List.map_filterMap]
  apply List.filterMap_congr
  intro i hi
  have hlt := hids i hi
  have hnode : g.nodes[i]? = some g.nodes[i] := by simp [hlt]
  rw [Function.comp_apply, nodes_placeOf h hs ht hne hnode, hnode, Option.map_some]

omit ht hne in
theorem keys_mergeSlots : (g.mergeSlots source gone kept).keys = g.keys.erase source := by
  have hsource := (h.slots_iff source gone).1 hs
  have hgone : gone < g.keys.length := by
    simpa [keys] using h.slot_lt hs
  have hidx : g.keys[gone] = source := by
    have := (Array.getElem?_eq_some_iff.1 hsource).2
    simpa [keys] using this
  rw [← hidx, h.keys_nodup.erase_getElem]
  simp [keys, mergeSlots]

theorem readersOf_mergeSlots (u : CellKey) :
    (g.mergeSlots source gone kept).readersOf u =
      if u = source then []
      else if u = target then
        (g.readersOf target ++ g.readersOf source).map (renamed source target)
      else (g.readersOf u).map (renamed source target) := by
  by_cases hus : u = source
  · rw [if_pos hus, readersOf, slots_mergeSlots, if_pos hus.symm]
  · rw [if_neg hus]
    rcases hu : g.slots[u]? with _ | i
    · have hut : u ≠ target := by
        rintro rfl
        simp [ht] at hu
      rw [if_neg hut, readersOf, slots_mergeSlots, if_neg (Ne.symm hus), hu, readersOf, hu]
      rfl
    · have hi : i ≠ gone := by
        rintro rfl
        rw [h.slots_iff] at hu hs
        exact hus (Option.some.inj (hu.symm.trans hs))
      have hiff : i = kept ↔ u = target := by
        constructor
        · rintro rfl
          rw [h.slots_iff] at hu ht
          exact Option.some.inj (hu.symm.trans ht)
        · rintro rfl
          exact Option.some.inj (hu.symm.trans ht)
      have hslot : (g.mergeSlots source gone kept).slots[u]? = some (closeUp gone i) := by
        rw [slots_mergeSlots, if_neg (Ne.symm hus), hu, Option.map_some]
      rw [readersOf_eq hslot, next_mergeSlots h ht hi]
      by_cases hut : u = target
      · rw [if_pos (hiff.2 hut), if_pos hut, List.map_append,
          keysAt, List.filterMap_append, ← keysAt, ← keysAt,
          keysAt_map_placeOf h hs ht hne (h.inBounds i),
          keysAt_map_placeOf h hs ht hne (h.inBounds gone), ← readersOf_eq hu, ← readersOf_eq hs,
          hut, List.map_append]
      · rw [if_neg (mt hiff.1 hut), if_neg hut, keysAt_map_placeOf h hs ht hne (h.inBounds i),
          ← readersOf_eq hu]

end MergeSlots

section Rename

variable {source target : CellKey} (h : g.WellFormed) (hs : source ∈ g.keys)
  (hne : source ≠ target)
include h

theorem WellFormed.rename (source target : CellKey) : (g.rename source target).WellFormed := by
  rcases hs : g.slots[source]? with _ | gone
  · simpa [DependencyGraph.rename, hs] using h
  · by_cases hne : source = target
    · have heq : g.rename source target = g := by simp [DependencyGraph.rename, ← hne, hs]
      rwa [heq]
    · have ht := slotOf_spec h target
      rw [rename_eq hs hne]
      exact ht.wellFormed.mergeSlots (ht.slot_kept _ _ hs) ht.slot_eq hne

include hs hne

theorem keys_rename :
    (g.rename source target).keys = (insertKey g.keys target).erase source := by
  obtain ⟨gone, hs⟩ := h.mem_keys_iff_slot.1 hs
  have ht := slotOf_spec h target
  rw [rename_eq hs hne, keys_mergeSlots ht.wellFormed (ht.slot_kept _ _ hs), ht.keys_eq]

theorem readersOf_rename (u : CellKey) :
    (g.rename source target).readersOf u =
      if u = source then []
      else if u = target then
        (g.readersOf target ++ g.readersOf source).map (renamed source target)
      else (g.readersOf u).map (renamed source target) := by
  obtain ⟨gone, hs⟩ := h.mem_keys_iff_slot.1 hs
  have ht := slotOf_spec h target
  rw [rename_eq hs hne,
    readersOf_mergeSlots ht.wellFormed (ht.slot_kept _ _ hs) ht.slot_eq hne]
  simp only [ht.readersOf_eq]

end Rename

end DependencyGraph

end Spreadsheet
