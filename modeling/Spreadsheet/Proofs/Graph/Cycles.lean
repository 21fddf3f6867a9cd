import Mathlib.Data.List.Basic
import Mathlib.Data.List.Nodup
import Mathlib.Logic.Relation
import Spreadsheet.Proofs.Graph.Arena
import Spreadsheet.Proofs.Graph.Order

/-!
# Cycles and evaluation order of cells

What the search finds out about slots, said about cells.

Results:
* `inCycle_iff`: a node is found to lie on a cycle iff a path of at least one edge leads from it
  back to it.
* `mem_evaluationOrder`, `evaluationOrder_nodup`: the evaluation order lists every node once.
* `mem_before_of_apart`, `mem_before`: a node comes after everything of other components that it
  reads; on no cycle, after everything that it reads.
* `evaluation_induction`: induction along the evaluation order.
-/

namespace Spreadsheet.DependencyGraph

variable {g : DependencyGraph}

/-- The cell `v` reads the cell `u`. -/
def ReadBy (g : DependencyGraph) (u v : CellKey) : Prop :=
  v ∈ g.readersOf u

/-- A path of at least one edge leads from the node back to it. -/
def OnCycle (g : DependencyGraph) (key : CellKey) : Prop :=
  Relation.TransGen g.ReadBy key key

namespace WellFormed

variable (h : g.WellFormed)
include h

theorem edges_inBounds : g.readers.InBounds := by
  intro v w hw
  rw [h.size_eq]
  exact h.inBounds v w hw

theorem slot_lt_readers {key : CellKey} {id : Nat} (hs : g.slots[key]? = some id) :
    id < g.readers.size := by
  rw [h.size_eq]
  exact h.slot_lt hs

/-- Every slot holds a node. -/
theorem exists_slot {id : Nat} (hid : id < g.readers.size) :
    ∃ key : CellKey, g.slots[key]? = some id := by
  have hlt : id < g.nodes.size := h.size_eq ▸ hid
  exact ⟨g.nodes[id], (h.slots_iff _ id).2 (by simp [hlt])⟩

/-! ## Paths -/

theorem readBy_iff_edge {u v : CellKey} {i j : Nat} (hi : g.slots[u]? = some i)
    (hj : g.slots[v]? = some j) : g.ReadBy u v ↔ g.readers.Edge i j := by
  rw [ReadBy, readersOf_eq hi, mem_keysAt_iff, Adjacency.Edge]
  have hv := (h.slots_iff v j).1 hj
  constructor
  · rintro ⟨k, hk, hkv⟩
    rwa [h.slot_inj hv hkv]
  · exact fun hmem => ⟨j, hmem, hv⟩

/-- A path of slots is a path of cells. -/
theorem transGen_readBy_iff {u v : CellKey} {i j : Nat} (hi : g.slots[u]? = some i)
    (hj : g.slots[v]? = some j) :
    Relation.TransGen g.ReadBy u v ↔ Relation.TransGen g.readers.Edge i j := by
  constructor
  · intro hpath
    induction hpath generalizing j with
    | single huv => exact .single ((h.readBy_iff_edge hi hj).1 huv)
    | @tail w v _ hwv ih =>
      obtain ⟨k, hk⟩ := h.mem_keys_iff_slot.1 (h.mem_keys_of_readersOf hwv)
      exact (ih hk).tail ((h.readBy_iff_edge hk hj).1 hwv)
  · intro hpath
    induction hpath generalizing v with
    | single hij => exact .single ((h.readBy_iff_edge hi hj).2 hij)
    | @tail k j _ hkj ih =>
      obtain ⟨w, hk⟩ := h.exists_slot (Adjacency.lt_of_edge hkj)
      exact (ih hk).tail ((h.readBy_iff_edge hk hj).2 hkj)

/-! ## Components -/

theorem mem_membersOf_iff {i c : Nat} :
    i ∈ g.condensation.membersOf c ↔ (searchAll g.readers).owner[i]? = some c := by
  rw [owner_eq_some_iff_mem h.edges_inBounds, Condensation.membersOf]
  show i ∈ (searchAll g.readers).done[c]?.getD [] ↔ _
  rcases (searchAll g.readers).done[c]? with _ | members
  · simp
  · simp

theorem membersOf_nodup (c : Nat) : (g.condensation.membersOf c).Nodup := by
  rw [Condensation.membersOf]
  show ((searchAll g.readers).done[c]?.getD []).Nodup
  rcases hc : (searchAll g.readers).done[c]? with _ | members
  · exact List.nodup_nil
  · exact (done_nodup h.edges_inBounds (Array.mem_of_getElem? hc)).2

/-- The node in a slot, with the component of the slot. -/
theorem exists_component {key : CellKey} {i : Nat} (hs : g.slots[key]? = some i) :
    ∃ c, (searchAll g.readers).owner[i]? = some c :=
  exists_owner h.edges_inBounds (h.slot_lt_readers hs)

/-- A slot lies on a cycle iff it has an edge to itself or shares its component. -/
theorem transGen_edge_self_iff {i c : Nat} (hc : (searchAll g.readers).owner[i]? = some c) :
    Relation.TransGen g.readers.Edge i i ↔
      1 < (g.condensation.membersOf c).length ∨ g.readers.Edge i i := by
  have hi := h.mem_membersOf_iff.2 hc
  have hbound {k : Nat} (hk : k ∈ g.condensation.membersOf c) : k < g.readers.size := by
    have hsome := (Array.getElem?_eq_some_iff.1 (h.mem_membersOf_iff.1 hk)).1
    rwa [Search.owner, Array.size_map, (Search.exploring_searchAll h.edges_inBounds).size_eq]
      at hsome
  constructor
  · intro hpath
    obtain ⟨k, hik, hki⟩ := Relation.TransGen.head'_iff.1 hpath
    by_cases hki' : k = i
    · exact Or.inr (hki' ▸ hik)
    · left
      have hk : k < g.readers.size := h.edges_inBounds i k hik
      have howner := (owner_eq_iff h.edges_inBounds (hbound hi) hk).2 ⟨.single hik, hki⟩
      have hmem : k ∈ g.condensation.membersOf c :=
        h.mem_membersOf_iff.2 (howner.symm.trans hc)
      by_contra hlen
      obtain ⟨x, hx⟩ := List.length_eq_one_iff.1
        (Nat.le_antisymm (Nat.le_of_not_lt hlen) (List.length_pos_of_mem hi))
      rw [hx, List.mem_singleton] at hi hmem
      exact hki' (hmem.trans hi.symm)
  · rintro (hlen | hself)
    · obtain ⟨k, hk, hne⟩ : ∃ k ∈ g.condensation.membersOf c, k ≠ i := by
        by_contra hall
        push Not at hall
        have hrep := List.eq_replicate_of_mem hall
        have hnodup := h.membersOf_nodup c
        rw [hrep, List.nodup_replicate] at hnodup
        omega
      have howner := hc.trans (h.mem_membersOf_iff.1 hk).symm
      obtain ⟨hik, hki⟩ := (owner_eq_iff h.edges_inBounds (hbound hi) (hbound hk)).1 howner
      rcases Relation.ReflTransGen.cases_head hik with heq | ⟨m, him, hmk⟩
      · exact absurd heq.symm hne
      · exact Relation.TransGen.head' him (hmk.trans hki)
    · exact .single hself

end WellFormed

/-- The test for cycles is exact. -/
theorem inCycle_iff (h : g.WellFormed) {key : CellKey} :
    g.inCycle g.condensation key ↔ g.OnCycle key := by
  rw [inCycle, OnCycle]
  rcases hs : g.slots[key]? with _ | i
  · simp only [Bool.false_eq_true, false_iff]
    intro hpath
    obtain ⟨v, huv, -⟩ := Relation.TransGen.head'_iff.1 hpath
    obtain ⟨i, hi⟩ := h.mem_keys_iff_slot.1 (h.mem_keys_of_readersOf huv)
    simp [hs] at hi
  · obtain ⟨c, hc⟩ := h.exists_component hs
    have howner : g.condensation.owner[i]? = some c := hc
    rw [h.transGen_readBy_iff hs hs, h.transGen_edge_self_iff hc]
    simp [howner, Adjacency.Edge]

/-! ## Evaluation order -/

section Order

variable (h : g.WellFormed)
include h

theorem mem_members_iff {key : CellKey} {c : Nat} :
    key ∈ g.members g.condensation c ↔
      ∃ i, g.slots[key]? = some i ∧ (searchAll g.readers).owner[i]? = some c := by
  rw [members, mem_keysAt_iff]
  constructor
  · rintro ⟨i, hi, hkey⟩
    exact ⟨i, (h.slots_iff key i).2 hkey, h.mem_membersOf_iff.1 hi⟩
  · rintro ⟨i, hs, hc⟩
    exact ⟨i, h.mem_membersOf_iff.2 hc, (h.slots_iff key i).1 hs⟩

theorem members_nodup (c : Nat) : (g.members g.condensation c).Nodup := by
  apply (h.membersOf_nodup c).filterMap
  intro i j key hi hj
  exact h.slot_inj hi hj

/-- A node is in one component only. -/
theorem component_unique {key : CellKey} {c d : Nat} (hc : key ∈ g.members g.condensation c)
    (hd : key ∈ g.members g.condensation d) : c = d := by
  obtain ⟨i, hi, hic⟩ := (mem_members_iff h).1 hc
  obtain ⟨j, hj, hjd⟩ := (mem_members_iff h).1 hd
  obtain rfl := Option.some.inj (hi.symm.trans hj)
  exact Option.some.inj (hic.symm.trans hjd)

theorem evaluationOrder_nodup : (g.evaluationOrder g.condensation).Nodup := by
  rw [evaluationOrder, List.nodup_flatMap]
  refine ⟨fun c _ => members_nodup h c, ?_⟩
  apply (readyOrder_order h.edges_inBounds).nodup.imp
  intro c d hne key hc hd
  exact hne (component_unique h hc hd)

theorem mem_evaluationOrder {key : CellKey} :
    key ∈ g.evaluationOrder g.condensation ↔ key ∈ g.keys := by
  rw [evaluationOrder, List.mem_flatMap]
  constructor
  · rintro ⟨c, -, hc⟩
    obtain ⟨i, hi, -⟩ := (mem_members_iff h).1 hc
    exact h.mem_keys_iff_slot.2 ⟨i, hi⟩
  · intro hkey
    obtain ⟨i, hi⟩ := h.mem_keys_iff_slot.1 hkey
    obtain ⟨c, hc⟩ := h.exists_component hi
    obtain ⟨members, hdone, -⟩ := (owner_eq_some_iff_mem h.edges_inBounds).1 hc
    have hlt := (Array.getElem?_eq_some_iff.1 hdone).1
    exact ⟨c, (mem_order h.edges_inBounds).2 hlt, (mem_members_iff h).2 ⟨i, hi, hc⟩⟩

/-- A node stands after every node of another component that it reads. -/
theorem mem_before_of_apart {pre post : List CellKey} {key u : CellKey}
    (hsplit : g.evaluationOrder g.condensation = pre ++ key :: post) (hread : g.ReadBy u key)
    (hapart : ∀ c, u ∈ g.members g.condensation c → key ∉ g.members g.condensation c) :
    u ∈ pre := by
  have hnodup := evaluationOrder_nodup h
  have hmem : key ∈ g.evaluationOrder g.condensation := by simp [hsplit]
  obtain ⟨c, hc, hkey⟩ := List.mem_flatMap.1 hmem
  obtain ⟨before, after, horder⟩ := List.append_of_mem hc
  obtain ⟨i, hi, hic⟩ := (mem_members_iff h).1 hkey
  obtain ⟨j, hj⟩ := h.mem_keys_iff_slot.1 (h.mem_keys_of_readersOf hread)
  obtain ⟨d, hjd⟩ := h.exists_component hj
  have hu : u ∈ g.members g.condensation d := (mem_members_iff h).2 ⟨j, hj, hjd⟩
  have hne : d ≠ c := by
    rintro rfl
    exact hapart d hu hkey
  have hlink : (Condensation.of g.readers).links.Edge d c :=
    (mem_componentLinks_iff h.edges_inBounds).2
      ⟨hne, j, i, hjd, (h.readBy_iff_edge hj hi).1 hread, hic⟩
  have hready := readyOrder_order h.edges_inBounds
  have hd : d ∈ before := by
    rw [show (Condensation.of g.readers).order = before ++ c :: after from horder] at hready
    exact (hready.mem_before hlink).resolve_left List.not_mem_nil
  obtain ⟨first, last, hmembers⟩ := List.append_of_mem hkey
  -- the list splits at `key` in one way only
  have hsplit' : g.evaluationOrder g.condensation =
      (before.flatMap (g.members g.condensation) ++ first) ++
        key :: (last ++ after.flatMap (g.members g.condensation)) := by
    rw [evaluationOrder, horder, List.flatMap_append, List.flatMap_cons, hmembers]
    simp
  rw [hsplit] at hsplit' hnodup
  have hfresh := (List.nodup_middle.1 hnodup).notMem
  have hpre := ((List.append_cons_inj_of_notMem
    (fun hp => hfresh (List.mem_append_left _ hp))
    (fun hp => hfresh (List.mem_append_right _ hp))).1 hsplit').1
  rw [hpre]
  exact List.mem_append_left _ (List.mem_flatMap.2 ⟨d, hd, hu⟩)

/-- A node on no cycle stands after every node that it reads. -/
theorem mem_before {pre post : List CellKey} {key u : CellKey}
    (hsplit : g.evaluationOrder g.condensation = pre ++ key :: post)
    (hcycle : ¬ g.OnCycle key) (hread : g.ReadBy u key) : u ∈ pre := by
  apply mem_before_of_apart h hsplit hread
  intro c hu hkey
  obtain ⟨j, hj, hjc⟩ := (mem_members_iff h).1 hu
  obtain ⟨i, hi, hic⟩ := (mem_members_iff h).1 hkey
  obtain ⟨-, hij⟩ := (owner_eq_iff h.edges_inBounds (h.slot_lt_readers hj)
    (h.slot_lt_readers hi)).1 (hjc.trans hic.symm)
  have hedge := (h.readBy_iff_edge hj hi).1 hread
  exact hcycle ((h.transGen_readBy_iff hi hi).2 (Relation.TransGen.tail' hij hedge))

/-- What holds of a cell if it holds of all that the cell reads, holds of every cell. On a cycle
    nothing may be used of what is read. -/
theorem evaluation_induction {motive : CellKey → Prop}
    (step : ∀ key, (¬ g.OnCycle key → ∀ source, g.ReadBy source key → motive source) → motive key)
    (key : CellKey) : motive key := by
  -- by the number of cells before it in the evaluation order
  have hnode : ∀ n, ∀ pre key post, pre.length = n →
      g.evaluationOrder g.condensation = pre ++ key :: post → motive key := by
    intro n
    induction n using Nat.strongRecOn with
    | ind n ih =>
      intro pre key post hlength hsplit
      apply step
      intro hcycle source hread
      obtain ⟨first, last, rfl⟩ := List.append_of_mem (mem_before h hsplit hcycle hread)
      refine ih first.length ?_ first source (last ++ key :: post) rfl (by simp [hsplit])
      rw [← hlength, List.length_append, List.length_cons]
      omega
  by_cases hkey : key ∈ g.keys
  · obtain ⟨pre, post, hsplit⟩ := List.append_of_mem ((mem_evaluationOrder h).2 hkey)
    exact hnode _ pre key post rfl hsplit
  · -- a cell that is no node reads nothing
    exact step key fun _ source hread => absurd (mem_keys_of_mem_readersOf hread) hkey

end Order

end Spreadsheet.DependencyGraph
