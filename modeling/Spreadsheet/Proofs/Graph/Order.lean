import Mathlib.Data.List.Count
import Spreadsheet.Graph.Order
import Spreadsheet.Proofs.Graph.Components

/-!
# Every edge between components leads forward

Kahn's algorithm counts, for each component, its edges from components that have not been taken. On
edges that lead from larger to smaller numbers it takes every component, and each one after all
those with an edge to it.

Results:
* `ReadyOrder` says that every listed component comes after those with an edge to it.
* `readyOrder_kahn`, `mem_kahn`: the order of `kahn` is such an order and leaves nothing out.
* `mem_componentLinks_iff`: the edges between components are those of their nodes.
-/

namespace Spreadsheet

/-! ## Orders -/

/-- Each listed node has not been taken, and everything with an edge to it has. -/
def ReadyOrder (links : Adjacency) : (taken order : List Nat) → Prop
  | _, [] => True
  | taken, v :: rest =>
    v < links.size ∧ v ∉ taken ∧ (∀ a, links.Edge a v → a ∈ taken) ∧
      ReadyOrder links (v :: taken) rest

namespace ReadyOrder

variable {links : Adjacency} {taken order : List Nat}

theorem lt_size (h : ReadyOrder links taken order) {v : Nat} (hv : v ∈ order) : v < links.size := by
  induction order generalizing taken with
  | nil => simp at hv
  | cons u rest ih =>
    rcases List.mem_cons.1 hv with rfl | hv
    · exact h.1
    · exact ih h.2.2.2 hv

theorem not_mem_taken (h : ReadyOrder links taken order) {v : Nat} (hv : v ∈ order) :
    v ∉ taken := by
  induction order generalizing taken with
  | nil => simp at hv
  | cons u rest ih =>
    rcases List.mem_cons.1 hv with rfl | hv
    · exact h.2.1
    · exact fun hmem => ih h.2.2.2 hv (List.mem_cons_of_mem _ hmem)

theorem nodup (h : ReadyOrder links taken order) : order.Nodup := by
  induction order generalizing taken with
  | nil => exact List.nodup_nil
  | cons u rest ih =>
    exact List.nodup_cons.2
      ⟨fun hmem => h.2.2.2.not_mem_taken hmem List.mem_cons_self, ih h.2.2.2⟩

/-- What has an edge to a listed node stands before it, unless it was taken. -/
theorem mem_before {pre post : List Nat} {v : Nat}
    (h : ReadyOrder links taken (pre ++ v :: post)) {a : Nat} (ha : links.Edge a v) :
    a ∈ taken ∨ a ∈ pre := by
  induction pre generalizing taken with
  | nil => exact Or.inl (h.2.2.1 a ha)
  | cons u pre ih =>
    rcases ih h.2.2.2 with hm | hm
    · rcases List.mem_cons.1 hm with rfl | hm
      · exact Or.inr List.mem_cons_self
      · exact Or.inl hm
    · exact Or.inr (List.mem_cons_of_mem _ hm)

end ReadyOrder

/-! ## Counting open edges -/

/-- The number of nodes with an edge to `t` that have not been taken. -/
def openInto (links : Adjacency) (taken : List Nat) (t : Nat) : Nat :=
  (List.range links.size).countP fun a => a ∉ taken ∧ t ∈ links.next a

theorem openInto_eq_zero {links : Adjacency} {taken : List Nat} {t : Nat} :
    openInto links taken t = 0 ↔ ∀ a, links.Edge a t → a ∈ taken := by
  rw [openInto, List.countP_eq_zero]
  simp only [List.mem_range, decide_eq_true_eq, not_and]
  constructor
  · intro h a ha
    by_contra hnot
    exact h a (Adjacency.lt_of_edge ha) hnot ha
  · intro h a _ hnot ha
    exact hnot (h a ha)

/-- Taking `v` closes its edges. -/
theorem openInto_cons {links : Adjacency} {taken : List Nat} {v : Nat} (hlt : v < links.size)
    (hv : v ∉ taken) (t : Nat) :
    openInto links taken t =
      openInto links (v :: taken) t + if t ∈ links.next v then 1 else 0 := by
  unfold openInto
  have hperm := List.perm_cons_erase (List.mem_range.2 hlt)
  rw [hperm.countP_eq, hperm.countP_eq, List.countP_cons, List.countP_cons]
  have hrest : ∀ a ∈ (List.range links.size).erase v, a ≠ v := fun a ha heq =>
    List.nodup_range.not_mem_erase (heq ▸ ha)
  have hcount : ((List.range links.size).erase v).countP
      (fun a => a ∉ v :: taken ∧ t ∈ links.next a) =
      ((List.range links.size).erase v).countP (fun a => a ∉ taken ∧ t ∈ links.next a) := by
    apply List.countP_congr
    intro a ha
    simp [hrest a ha]
  rw [hcount]
  simp [hv]

/-! ## Steps of the algorithm -/

namespace Waiting

/-- The counters are those of the open edges, and what waits is what has none. -/
structure Taking (links : Adjacency) (taken : List Nat) (w : Waiting) : Prop where
  pending_eq : ∀ t < links.size, w.pending[t]? = some (openInto links taken t)
  mem_ready : ∀ t, t ∈ w.ready ↔ t < links.size ∧ t ∉ taken ∧ openInto links taken t = 0
  ready_nodup : w.ready.Nodup
  taken_closed : ∀ t ∈ taken, openInto links taken t = 0

theorem pending_release {w : Waiting} {t n : Nat} (h : w.pending[t]? = some (n + 1)) (u : Nat) :
    (w.release t).pending[u]? = if u = t then some n else w.pending[u]? := by
  obtain ⟨hlt, -⟩ := Array.getElem?_eq_some_iff.1 h
  have hset : ∀ m, (w.pending.setIfInBounds t m)[u]? =
      if u = t then some m else w.pending[u]? := by
    intro m
    rw [Array.getElem?_setIfInBounds]
    by_cases hu : u = t
    · simp [hu, hlt]
    · simp [hu, Ne.symm hu]
  cases n with
  | zero => simp only [release, h]; exact hset 0
  | succ n => simp only [release, h]; exact hset (n + 1)

theorem ready_release {w : Waiting} {t n : Nat} (h : w.pending[t]? = some (n + 1)) :
    (w.release t).ready = if n = 0 then w.ready ++ [t] else w.ready := by
  cases n with
  | zero => simp [release, h]
  | succ n => simp [release, h]

/-- Releasing different nodes with open edges: each loses one, and those that lose the last become
    ready. -/
theorem foldl_release {targets : List Nat} (hnodup : targets.Nodup) {w : Waiting}
    (hopen : ∀ t ∈ targets, ∃ n, w.pending[t]? = some (n + 1)) :
    (∀ u, (targets.foldl release w).pending[u]? =
      if u ∈ targets then w.pending[u]?.map (· - 1) else w.pending[u]?) ∧
    (targets.foldl release w).ready =
      w.ready ++ targets.filter (fun t => w.pending[t]? = some 1) := by
  induction targets generalizing w with
  | nil => simp
  | cons t targets ih =>
    obtain ⟨hnot, hnodup⟩ := List.nodup_cons.1 hnodup
    obtain ⟨n, hn⟩ := hopen t List.mem_cons_self
    have hsame : ∀ u ∈ targets, (w.release t).pending[u]? = w.pending[u]? := by
      intro u hu
      rw [pending_release hn, if_neg (by rintro rfl; exact hnot hu)]
    obtain ⟨hpending, hready⟩ := ih hnodup (w := w.release t) fun u hu => by
      rw [hsame u hu]
      exact hopen u (List.mem_cons_of_mem _ hu)
    rw [List.foldl_cons]
    constructor
    · intro u
      rw [hpending, pending_release hn]
      by_cases hut : u = t
      · subst hut
        simp [hnot, hn]
      · simp [hut]
    · have hfilter : targets.filter (fun u => (w.release t).pending[u]? = some 1) =
          targets.filter (fun u => w.pending[u]? = some 1) :=
        List.filter_congr fun u hu => by rw [hsame u hu]
      rw [hready, ready_release hn, hfilter, List.filter_cons, hn]
      by_cases h0 : n = 0
      · simp [h0]
      · simp [h0]

/-- Taking the first node that waits. -/
theorem Taking.step {links : Adjacency} {taken rest : List Nat} {v : Nat} {pending : Array Nat}
    (hb : links.InBounds) (hnodup : ∀ a, (links.next a).Nodup)
    (h : Taking links taken ⟨pending, v :: rest⟩) :
    Taking links (v :: taken) ((links.next v).foldl release ⟨pending, rest⟩) := by
  obtain ⟨hlt, hv, hzero⟩ := (h.mem_ready v).1 List.mem_cons_self
  obtain ⟨hvrest, hrest⟩ := List.nodup_cons.1 h.ready_nodup
  have hcount := openInto_cons hlt hv
  have hopen : ∀ t ∈ links.next v, ∃ n, pending[t]? = some (n + 1) := by
    intro t ht
    refine ⟨openInto links (v :: taken) t, ?_⟩
    rw [h.pending_eq t (hb v t ht), hcount, if_pos ht]
  obtain ⟨hpending, hready⟩ := foldl_release (hnodup v) (w := ⟨pending, rest⟩) hopen
  have hlast : ∀ t, t ∈ (links.next v).filter (fun t => pending[t]? = some 1) ↔
      t ∈ links.next v ∧ openInto links (v :: taken) t = 0 := by
    intro t
    rw [List.mem_filter]
    constructor
    · rintro ⟨ht, h1⟩
      refine ⟨ht, ?_⟩
      rw [h.pending_eq t (hb v t ht), hcount, if_pos ht] at h1
      simpa using h1
    · rintro ⟨ht, h0⟩
      refine ⟨ht, ?_⟩
      rw [h.pending_eq t (hb v t ht), hcount, if_pos ht, h0]
      simp
  constructor
  · intro t ht
    rw [hpending]
    simp only
    rw [h.pending_eq t ht, hcount]
    split_ifs with hmem
    · simp
    · simp
  · intro t
    rw [hready, List.mem_append, hlast]
    by_cases ht : t ∈ links.next v
    · have hpos : openInto links taken t ≠ 0 := by
        rw [hcount, if_pos ht]
        omega
      have hrest' : t ∉ rest := fun hm => hpos ((h.mem_ready t).1 (List.mem_cons_of_mem _ hm)).2.2
      have htv : t ≠ v := fun heq => hpos (heq ▸ hzero)
      have htaken : t ∉ taken := fun hm => hpos (h.taken_closed t hm)
      simp [ht, hrest', htv, htaken, hb v t ht]
    · have hold := h.mem_ready t
      rw [hcount, if_neg ht, Nat.add_zero, List.mem_cons] at hold
      by_cases htv : t = v
      · subst htv
        simp [hvrest, ht]
      · simp only [htv, false_or] at hold
        simp [ht, htv, hold]
  · rw [hready]
    refine List.nodup_append.2 ⟨hrest, (hnodup v).filter _, ?_⟩
    intro a ha b hb' heq
    subst heq
    obtain ⟨ht, -⟩ := (hlast a).1 hb'
    obtain ⟨n, hn⟩ := hopen a ht
    have h0 := ((h.mem_ready a).1 (List.mem_cons_of_mem _ ha)).2.2
    rw [h.pending_eq a (hb v a ht), h0] at hn
    simp at hn
  · intro t ht
    rw [openInto_eq_zero]
    intro a ha
    rcases List.mem_cons.1 ht with rfl | ht
    · exact List.mem_cons_of_mem _ (openInto_eq_zero.1 hzero a ha)
    · exact List.mem_cons_of_mem _ (openInto_eq_zero.1 (h.taken_closed t ht) a ha)

/-! ## The start -/

theorem getElem?_foldl_modify (targets : List Nat) (counts : Array Nat) (t : Nat) :
    (targets.foldl (fun counts t => counts.modify t (· + 1)) counts)[t]? =
      counts[t]?.map (· + targets.count t) := by
  induction targets generalizing counts with
  | nil => simp
  | cons u targets ih =>
    rw [List.foldl_cons, ih, Array.getElem?_modify, List.count_cons]
    by_cases hu : u = t
    · simp [hu, Function.comp_def, Nat.add_comm, Nat.add_left_comm]
    · simp [hu]

theorem getElem?_foldl_foldl_modify {lists : List (List Nat)} (hnodup : ∀ l ∈ lists, l.Nodup)
    (counts : Array Nat) (t : Nat) :
    (lists.foldl (fun counts targets =>
        targets.foldl (fun counts t => counts.modify t (· + 1)) counts) counts)[t]? =
      counts[t]?.map (· + lists.countP (t ∈ ·)) := by
  induction lists generalizing counts with
  | nil => simp
  | cons l lists ih =>
    rw [List.foldl_cons, ih (fun m hm => hnodup m (List.mem_cons_of_mem _ hm)),
      getElem?_foldl_modify, List.countP_cons, (hnodup l List.mem_cons_self).count]
    by_cases ht : t ∈ l
    · simp [ht, Function.comp_def, Nat.add_assoc, Nat.add_comm 1]
    · simp [ht]

theorem toList_eq_map_next (links : Adjacency) :
    links.toList = (List.range links.size).map links.next := by
  apply List.ext_getElem
  · simp
  · intro i h₁ h₂
    have hlt : i < links.size := by simpa using h₁
    simp [Adjacency.next, hlt]

theorem countInto_eq {links : Adjacency} (hnodup : ∀ a, (links.next a).Nodup) {t : Nat}
    (ht : t < links.size) : (countInto links)[t]? = some (openInto links [] t) := by
  have hlists : ∀ l ∈ links.toList, l.Nodup := by
    intro l hl
    rw [toList_eq_map_next] at hl
    obtain ⟨a, -, rfl⟩ := List.mem_map.1 hl
    exact hnodup a
  rw [countInto, ← Array.foldl_toList, getElem?_foldl_foldl_modify hlists, toList_eq_map_next,
    List.countP_map]
  simp [ht, openInto, Function.comp_def]

theorem taking_start {links : Adjacency} (hnodup : ∀ a, (links.next a).Nodup) :
    Taking links [] (start links) := by
  constructor
  · exact fun t ht => countInto_eq hnodup ht
  · intro t
    simp only [start, List.mem_filter, List.mem_range, List.not_mem_nil, not_false_eq_true,
      true_and, beq_iff_eq]
    constructor
    · rintro ⟨ht, h0⟩
      rw [countInto_eq hnodup ht] at h0
      exact ⟨ht, Option.some.inj h0⟩
    · rintro ⟨ht, h0⟩
      exact ⟨ht, by rw [countInto_eq hnodup ht, h0]⟩
  · exact List.nodup_range.filter _
  · simp

/-! ## Runs -/

/-- Taking what waits until nothing waits gives an order of what was left. -/
theorem Taking.readyOrder_takeAll {links : Adjacency} {taken : List Nat} {w : Waiting}
    (hb : links.InBounds) (hnodup : ∀ a, (links.next a).Nodup) (h : Taking links taken w) :
    ReadyOrder links taken (w.takeAll links) := by
  fun_induction takeAll links w generalizing taken with
  | case1 w hw => trivial
  | case2 w v rest hw ih =>
    obtain ⟨pending, ready⟩ := w
    obtain rfl : ready = v :: rest := hw
    obtain ⟨hlt, hv, hzero⟩ := (h.mem_ready v).1 List.mem_cons_self
    exact ⟨hlt, hv, openInto_eq_zero.1 hzero, ih (h.step hb hnodup)⟩

/-- With edges that lead to smaller numbers nothing is left out: of the nodes left the largest one
    would have no open edge. -/
theorem Taking.mem_takeAll {links : Adjacency} {taken : List Nat} {w : Waiting}
    (hb : links.InBounds) (hnodup : ∀ a, (links.next a).Nodup)
    (hdesc : ∀ a t, links.Edge a t → t < a) (h : Taking links taken w) {v : Nat}
    (hv : v < links.size) : v ∈ taken ∨ v ∈ w.takeAll links := by
  fun_induction takeAll links w generalizing taken with
  | case1 w hw =>
    left
    by_contra hnot
    have hleft : ∀ k u, u < links.size → u ∉ taken → links.size ≤ u + k → False := by
      intro k
      induction k with
      | zero => intro u hu _ hle; omega
      | succ k ih =>
        intro u hu hut hle
        have hopen : openInto links taken u ≠ 0 := fun h0 => by
          have := (h.mem_ready u).2 ⟨hu, hut, h0⟩
          simp [hw] at this
        rw [Ne, openInto_eq_zero] at hopen
        push Not at hopen
        obtain ⟨a, ha, hat⟩ := hopen
        have := hdesc a u ha
        exact ih a (Adjacency.lt_of_edge ha) hat (by omega)
    exact hleft links.size v hv hnot (by omega)
  | case2 w u rest hw ih =>
    obtain ⟨pending, ready⟩ := w
    obtain rfl : ready = u :: rest := hw
    rcases ih (h.step hb hnodup) with hm | hm
    · rcases List.mem_cons.1 hm with rfl | hm
      · exact Or.inr List.mem_cons_self
      · exact Or.inl hm
    · exact Or.inr (List.mem_cons_of_mem _ hm)

end Waiting

section Kahn

variable {links : Adjacency} (hb : links.InBounds) (hnodup : ∀ a, (links.next a).Nodup)
include hb hnodup

theorem readyOrder_kahn : ReadyOrder links [] (kahn links) :=
  (Waiting.taking_start hnodup).readyOrder_takeAll hb hnodup

theorem mem_kahn (hdesc : ∀ a t, links.Edge a t → t < a) {v : Nat} :
    v ∈ kahn links ↔ v < links.size := by
  constructor
  · exact (readyOrder_kahn hb hnodup).lt_size
  · intro hv
    exact ((Waiting.taking_start hnodup).mem_takeAll hb hnodup hdesc hv).resolve_left (by simp)

end Kahn

/-! ## Edges between components -/

theorem mem_linksOf_iff {edges : Adjacency} {owner : Array Nat} {c d : Nat} {members : List Nat} :
    d ∈ linksOf edges owner c members ↔
      d ≠ c ∧ ∃ v ∈ members, ∃ w, edges.Edge v w ∧ owner[w]?.getD 0 = d := by
  rw [linksOf, Std.TreeSet.mem_toList, Std.TreeSet.mem_ofList]
  simp only [List.contains_iff_mem, List.mem_filter, List.mem_map, List.mem_flatMap,
    Adjacency.Edge, bne_iff_ne]
  constructor
  · rintro ⟨⟨w, ⟨v, hv, hw⟩, hd⟩, hne⟩
    exact ⟨hne, v, hv, w, hw, hd⟩
  · rintro ⟨hne, v, hv, w, hw, hd⟩
    exact ⟨⟨w, ⟨v, hv, hw⟩, hd⟩, hne⟩

theorem linksOf_sorted (edges : Adjacency) (owner : Array Nat) (c : Nat) (members : List Nat) :
    (linksOf edges owner c members).Pairwise (· < ·) := by
  have h := Std.TreeSet.ordered_toList (t := Std.TreeSet.ofList
    (((members.flatMap edges.next).map fun w => owner[w]?.getD 0).filter (· != c)) compare)
  exact h.imp Nat.compare_eq_lt.1

theorem next_componentLinks (edges : Adjacency) (components : Array (List Nat))
    (owner : Array Nat) (c : Nat) :
    (componentLinks edges components owner).next c =
      (components[c]?.map (linksOf edges owner c)).getD [] := by
  rw [componentLinks, Adjacency.next, Array.getElem?_mapIdx]

section Condensation

variable {edges : Adjacency} (hb : edges.InBounds)
include hb

/-- The edges between components are those between their nodes. -/
theorem mem_componentLinks_iff {c d : Nat} :
    (Condensation.of edges).links.Edge c d ↔
      c ≠ d ∧ ∃ v w, (searchAll edges).owner[v]? = some c ∧ edges.Edge v w ∧
        (searchAll edges).owner[w]? = some d := by
  show d ∈ (componentLinks edges (searchAll edges).done (searchAll edges).owner).next c ↔ _
  rw [next_componentLinks]
  constructor
  · intro hd
    rcases hc : (searchAll edges).done[c]? with _ | members
    · simp [hc] at hd
    · rw [hc, Option.map_some, Option.getD_some, mem_linksOf_iff] at hd
      obtain ⟨hne, v, hv, w, hw, hwd⟩ := hd
      obtain ⟨e, he⟩ := exists_owner hb (hb v w hw)
      rw [he, Option.getD_some] at hwd
      exact ⟨Ne.symm hne, v, w, (owner_eq_some_iff_mem hb).2 ⟨members, hc, hv⟩, hw, hwd ▸ he⟩
  · rintro ⟨hne, v, w, hv, hw, hwd⟩
    obtain ⟨members, hc, hmem⟩ := (owner_eq_some_iff_mem hb).1 hv
    rw [hc, Option.map_some, Option.getD_some, mem_linksOf_iff]
    exact ⟨Ne.symm hne, v, hmem, w, hw, by rw [hwd, Option.getD_some]⟩

omit hb in
/-- The components that a component has edges to are listed in ascending order. -/
theorem links_sorted (c : Nat) : ((Condensation.of edges).links.next c).Pairwise (· < ·) := by
  show ((componentLinks edges (searchAll edges).done (searchAll edges).owner).next c).Pairwise _
  rw [next_componentLinks]
  rcases (searchAll edges).done[c]? with _ | members
  · exact List.Pairwise.nil
  · exact linksOf_sorted ..

omit hb in
theorem links_nodup (c : Nat) : ((Condensation.of edges).links.next c).Nodup :=
  (links_sorted c).imp fun hlt => Nat.ne_of_lt hlt

/-- Edges between components lead to smaller numbers. -/
theorem lt_of_links_edge {c d : Nat} (h : (Condensation.of edges).links.Edge c d) : d < c := by
  obtain ⟨hne, v, w, hv, hw, hwd⟩ := (mem_componentLinks_iff hb).1 h
  exact Nat.lt_of_le_of_ne (owner_le_of_edge hb hw hv hwd) (Ne.symm hne)

theorem links_inBounds : (Condensation.of edges).links.InBounds := by
  intro c d hd
  exact Nat.lt_trans (lt_of_links_edge hb hd) (Adjacency.lt_of_edge hd)

omit hb in
theorem size_links : (Condensation.of edges).links.size = (searchAll edges).done.size := by
  simp [Condensation.of, componentLinks]

/-- The order lists every component once, each after those with an edge to it. -/
theorem readyOrder_order :
    ReadyOrder (Condensation.of edges).links [] (Condensation.of edges).order :=
  readyOrder_kahn (links_inBounds hb) links_nodup

theorem mem_order {c : Nat} :
    c ∈ (Condensation.of edges).order ↔ c < (searchAll edges).done.size := by
  rw [← size_links]
  exact mem_kahn (links_inBounds hb) links_nodup fun _ _ => lt_of_links_edge hb

end Condensation

end Spreadsheet
