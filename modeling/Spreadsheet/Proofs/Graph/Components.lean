import Spreadsheet.Proofs.Graph.Search

/-!
# The search finds the strongly connected components

Without frames no node is active, so at the end of the whole search every node is in a component.

Results:
* `exists_owner`, `owner_eq_some_iff_mem`: every node has a component, which lists it.
* `owner_eq_iff`: two nodes have the same component iff each reaches the other.
* `owner_le_of_edge`: no edge leads to a component with a larger number.
-/

namespace Spreadsheet

namespace Search

/-! ## What has been reached stays reached -/

theorem unseen_of_unseen_setIfInBounds {marks : Array Mark} {u v : Nat} {m : Mark}
    (hm : m ≠ .unseen) (h : (marks.setIfInBounds v m)[u]? = some .unseen) :
    marks[u]? = some .unseen := by
  rw [Array.getElem?_setIfInBounds] at h
  split_ifs at h
  · exact absurd (Option.some.inj h) hm
  · exact h

theorem unseen_of_unseen_lower {s : Search} {u v n : Nat}
    (h : (s.lower v n).marks[u]? = some .unseen) : s.marks[u]? = some .unseen := by
  unfold lower at h
  split at h
  · exact unseen_of_unseen_setIfInBounds (by simp) h
  · exact h

theorem unseen_of_unseen_inherit {s : Search} {u v : Nat} {frames : List Frame}
    (h : (s.inherit v frames).marks[u]? = some .unseen) : s.marks[u]? = some .unseen := by
  unfold inherit at h
  split at h
  · exact h
  · split at h
    · exact unseen_of_unseen_lower h
    · exact h

theorem unseen_of_unseen_finish {s : Search} {u v : Nat}
    (h : (s.finish v).marks[u]? = some .unseen) : s.marks[u]? = some .unseen := by
  unfold finish at h
  split at h
  · split at h
    · rw [getElem?_foldl_setIfInBounds] at h
      split_ifs at h
      · simp at h
      · exact h
    · exact h
  · exact h

theorem unseen_of_unseen_explore {edges : Adjacency} {s : Search} {frames : List Frame} {u : Nat}
    (h : (explore edges s frames).marks[u]? = some .unseen) : s.marks[u]? = some .unseen := by
  fun_induction explore edges s frames with
  | case1 s => exact h
  | case2 s v frames ih => exact unseen_of_unseen_inherit (unseen_of_unseen_finish (ih h))
  | case3 s v w ws frames hw _ ih => exact unseen_of_unseen_setIfInBounds (by simp) (ih h)
  | case4 s v w ws frames n l hw ih => exact unseen_of_unseen_lower (ih h)
  | case5 s v w ws frames _ _ ih => exact ih h

/-! ## The whole search -/

theorem exploring_start (edges : Adjacency) : Exploring edges (start edges.size) [] := by
  have hmarks : ∀ (v : Nat) (m : Mark), (start edges.size).marks[v]? = some m → m = .unseen := by
    intro v m hm
    exact (Array.eq_of_mem_replicate (Array.mem_of_getElem? hm))
  have hactive : ∀ v, ¬ (start edges.size).Active v := by
    rintro v ⟨n, l, hv⟩
    simpa using hmarks v _ hv
  have hplaced : ∀ v c, ¬ (start edges.size).Placed v c := by
    intro v c hv
    simpa using hmarks v _ hv
  constructor
  · simp [start]
  · intro v
    simpa [start] using hactive v
  · exact List.Pairwise.nil
  · exact fun v hv => absurd hv (hactive v)
  · intro v c
    simpa [start] using hplaced v c
  · simp [start]
  · exact fun v c _ hv => absurd hv (hplaced v c)
  · exact fun v _ c hv => absurd hv (hplaced v c)
  · simp
  · exact List.Pairwise.nil
  · simp
  · simp
  · simp
  · simp
  · exact fun v hv => absurd hv (hactive v)
  · exact fun v _ _ hv => absurd hv (hactive v)

section Whole

variable {edges : Adjacency} (hb : edges.InBounds)
include hb

theorem exploring_visit {s : Search} (h : Exploring edges s []) (root : Nat) :
    Exploring edges (visit edges s root) [] := by
  unfold visit
  split
  · rename_i hroot
    exact exploring_explore hb (h.enter hroot (by simp))
  · exact h

theorem exploring_foldl_visit {s : Search} (h : Exploring edges s []) (roots : List Nat) :
    Exploring edges (roots.foldl (visit edges) s) [] := by
  induction roots generalizing s with
  | nil => exact h
  | cons root roots ih => exact ih (exploring_visit hb h root)

omit hb in
theorem not_unseen_visit {s : Search} (root : Nat) :
    (visit edges s root).marks[root]? ≠ some .unseen := by
  unfold visit
  split
  · rename_i hroot
    intro h
    have := unseen_of_unseen_explore h
    simp [marks_discover hroot] at this
  · assumption

omit hb in
theorem unseen_of_unseen_visit {s : Search} {root u : Nat}
    (h : (visit edges s root).marks[u]? = some .unseen) : s.marks[u]? = some .unseen := by
  unfold visit at h
  split at h
  · exact unseen_of_unseen_setIfInBounds (by simp) (unseen_of_unseen_explore h)
  · exact h

omit hb in
theorem not_unseen_foldl_visit {s : Search} {roots : List Nat} {u : Nat}
    (hu : u ∈ roots ∨ s.marks[u]? ≠ some .unseen) :
    (roots.foldl (visit edges) s).marks[u]? ≠ some .unseen := by
  induction roots generalizing s with
  | nil => simpa using hu
  | cons root roots ih =>
    apply ih
    rcases hu with hu | hu
    · rcases List.mem_cons.1 hu with rfl | hu
      · exact Or.inr (not_unseen_visit u)
      · exact Or.inl hu
    · exact Or.inr (mt unseen_of_unseen_visit hu)

theorem exploring_searchAll : Exploring edges (searchAll edges) [] :=
  exploring_foldl_visit hb (exploring_start edges) _

/-- Every node is in a component in the end. -/
theorem exists_placed_searchAll {v : Nat} (hv : v < edges.size) :
    ∃ c, (searchAll edges).Placed v c := by
  have h := exploring_searchAll hb
  have hseen : (searchAll edges).marks[v]? ≠ some .unseen :=
    not_unseen_foldl_visit (Or.inl (List.mem_range.2 hv))
  rcases unseen_or_active_or_placed (h.size_eq ▸ hv) with hu | ha | hp
  · exact absurd hu hseen
  · -- without frames nothing covers an active node
    obtain ⟨x, hx, -⟩ := h.covered v ha
    simp [cover] at hx
  · exact hp

theorem owner_eq_some_iff {v c : Nat} :
    (searchAll edges).owner[v]? = some c ↔ (searchAll edges).Placed v c := by
  rw [owner, Array.getElem?_map, Placed]
  by_cases hv : v < edges.size
  · obtain ⟨d, hd⟩ := exists_placed_searchAll hb hv
    rw [Placed] at hd
    simp [hd]
  · rw [Array.getElem?_eq_none (by rw [(exploring_searchAll hb).size_eq]; omega)]
    simp

end Whole

end Search

/-! ## Results -/

section Results

open Search

variable {edges : Adjacency} (hb : edges.InBounds)
include hb

/-- Every node has a component. -/
theorem exists_owner {v : Nat} (hv : v < edges.size) :
    ∃ c, (searchAll edges).owner[v]? = some c := by
  obtain ⟨c, hc⟩ := exists_placed_searchAll hb hv
  exact ⟨c, (owner_eq_some_iff hb).2 hc⟩

/-- The components list exactly the nodes that they own. -/
theorem owner_eq_some_iff_mem {v c : Nat} :
    (searchAll edges).owner[v]? = some c ↔
      ∃ members, (searchAll edges).done[c]? = some members ∧ v ∈ members := by
  rw [owner_eq_some_iff hb]
  exact (exploring_searchAll hb).mem_done v c

theorem done_nodup {members : List Nat} (h : members ∈ (searchAll edges).done) :
    members ≠ [] ∧ members.Nodup :=
  (exploring_searchAll hb).done_nodup members h

/-- No edge leads to a component with a larger number. -/
theorem owner_le_of_edge {v w c d : Nat} (hedge : edges.Edge v w)
    (hv : (searchAll edges).owner[v]? = some c) (hw : (searchAll edges).owner[w]? = some d) :
    d ≤ c := by
  obtain ⟨e, hle, he⟩ := (exploring_searchAll hb).placed_edge v c w
    ((owner_eq_some_iff hb).1 hv) hedge
  rwa [((owner_eq_some_iff hb).1 hw).unique he]

theorem owner_le_of_reaches {v w c d : Nat} (hreach : edges.Reaches v w)
    (hv : (searchAll edges).owner[v]? = some c) (hw : (searchAll edges).owner[w]? = some d) :
    d ≤ c := by
  induction hreach generalizing d with
  | refl => exact Nat.le_of_eq (Option.some.inj (hw.symm.trans hv))
  | tail _ hedge ih =>
    obtain ⟨e, he⟩ := exists_owner hb (Adjacency.lt_of_edge hedge)
    exact Nat.le_trans (owner_le_of_edge hb hedge he hw) (ih he)

/-- Two nodes have the same component iff each reaches the other. -/
theorem owner_eq_iff {v w : Nat} (hv : v < edges.size) (hw : w < edges.size) :
    (searchAll edges).owner[v]? = (searchAll edges).owner[w]? ↔
      edges.Reaches v w ∧ edges.Reaches w v := by
  obtain ⟨c, hc⟩ := exists_owner hb hv
  obtain ⟨d, hd⟩ := exists_owner hb hw
  constructor
  · intro heq
    have hcv := (owner_eq_some_iff hb).1 hc
    have hcw := (owner_eq_some_iff hb).1 (heq.symm.trans hc)
    exact ⟨(exploring_searchAll hb).placed_reaches v w c hcv hcw,
      (exploring_searchAll hb).placed_reaches w v c hcw hcv⟩
  · rintro ⟨hvw, hwv⟩
    have h₁ := owner_le_of_reaches hb hvw hc hd
    have h₂ := owner_le_of_reaches hb hwv hd hc
    rw [hc, hd, Nat.le_antisymm h₁ h₂]

end Results

end Spreadsheet
