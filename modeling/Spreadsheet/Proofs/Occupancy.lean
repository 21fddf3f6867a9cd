import Mathlib.Data.List.TakeWhile
import Spreadsheet.Sheet

/-!
# Occupancy is exact

The heap of an occupancy may hold rows without content and may hold a row twice. What counts is that
it holds every row with content and that its top is one.

Results:
* `Counts` is the invariant: counts, heap and top agree with the numbers of cells in the rows.
* `Counts.add`, `Counts.remove` keep it, and no count that is lowered is zero: `Counts.pos`.
* `Counts.last?_eq_some_iff`: the top of the heap is the last row with content.
-/

namespace Spreadsheet.Occupancy

/-! ## The heap -/

theorem mem_push {i j : Nat} {heap : List Nat} : j ∈ push i heap ↔ j = i ∨ j ∈ heap := by
  induction heap with
  | nil => simp [push]
  | cons top rest ih =>
    unfold push
    split
    · exact List.mem_cons
    · rw [List.mem_cons, ih, List.mem_cons, or_left_comm]

/-- The top of the heap is what it was or what was put in. -/
theorem head?_push {i j : Nat} {heap : List Nat} (h : j ∈ (push i heap).head?) :
    j = i ∨ j ∈ heap.head? := by
  cases heap with
  | nil => exact Or.inl (by simpa [push] using h.symm)
  | cons top rest =>
    unfold push at h
    split at h
    · exact Or.inl (by simpa using h.symm)
    · exact Or.inr h

theorem pairwise_push {heap : List Nat} (h : heap.Pairwise (· ≥ ·)) (i : Nat) :
    (push i heap).Pairwise (· ≥ ·) := by
  induction heap with
  | nil => simp [push]
  | cons top rest ih =>
    obtain ⟨htop, hrest⟩ := List.pairwise_cons.1 h
    unfold push
    split
    · rename_i hle
      refine List.pairwise_cons.2 ⟨fun j hj => ?_, h⟩
      rcases List.mem_cons.1 hj with rfl | hj
      · exact hle
      · exact Nat.le_trans (htop j hj) hle
    · rename_i hlt
      refine List.pairwise_cons.2 ⟨fun j hj => ?_, ih hrest⟩
      rcases mem_push.1 hj with rfl | hj
      · exact Nat.le_of_not_le hlt
      · exact htop j hj

/-! ## The invariant -/

/-- The counts are the positive numbers among `n 0, n 1, …`, and their rows are in the heap. -/
structure Holds (o : Occupancy) (n : Nat → Nat) : Prop where
  counts_eq : ∀ i, o.counts[i]? = if n i = 0 then none else some (n i)
  sorted : o.heap.Pairwise (· ≥ ·)
  mem_heap : ∀ i, 0 < n i → i ∈ o.heap

/-- The occupancy holds the positive numbers among `n 0, n 1, …`, and the top of its heap has one of
    them. -/
structure Counts (o : Occupancy) (n : Nat → Nat) : Prop extends Holds o n where
  top : ∀ i ∈ o.heap.head?, 0 < n i

variable {o : Occupancy} {n : Nat → Nat}

theorem counts_empty : empty.Counts fun _ => 0 := by
  refine ⟨⟨fun i => ?_, List.Pairwise.nil, fun i hi => absurd hi (Nat.lt_irrefl 0)⟩, ?_⟩
  · simp [empty]
  · simp [empty]

theorem Holds.contains_iff (h : o.Holds n) (i : Nat) : o.counts.contains i ↔ 0 < n i := by
  rw [Std.TreeMap.contains_eq_isSome_getElem?, h.counts_eq i]
  by_cases hi : n i = 0
  · simp [hi]
  · simp [hi, Nat.pos_of_ne_zero hi]

theorem Holds.count_eq (h : o.Holds n) (i : Nat) : o.count i = n i := by
  rw [count, Std.TreeMap.getD_eq_getD_getElem?, h.counts_eq i]
  split
  · simp [*]
  · rfl

/-- What is counted is not zero. -/
theorem Holds.pos (h : o.Holds n) {i k : Nat} (hk : o.counts[i]? = some k) : 0 < k := by
  rw [h.counts_eq i] at hk
  split at hk
  · simp at hk
  · rename_i hi
    obtain rfl := Option.some.inj hk
    exact Nat.pos_of_ne_zero hi

/-- Only rows without content are taken off the heap. -/
theorem Holds.prune (h : o.Holds n) : o.prune.Counts n := by
  have hsub : o.prune.heap <:+ o.heap := List.dropWhile_suffix _
  refine ⟨⟨h.counts_eq, h.sorted.sublist hsub.sublist, fun i hi => ?_⟩, fun i hi => ?_⟩
  · have hmem := h.mem_heap i hi
    rw [← List.takeWhile_append_dropWhile (p := fun top => !o.counts.contains top)
      (l := o.heap)] at hmem
    rcases List.mem_append.1 hmem with hmem | hmem
    · have hstale := List.mem_takeWhile_imp hmem
      simp [(h.contains_iff i).2 hi] at hstale
    · exact hmem
  · have hkept := List.head?_dropWhile_not (fun top => !o.counts.contains top) o.heap
    have htop : (o.heap.dropWhile fun top => !o.counts.contains top).head? = some i := hi
    rw [htop] at hkept
    rw [← h.contains_iff]
    simpa using hkept

/-! ## One cell more or less -/

theorem Counts.add (h : o.Counts n) (i : Nat) :
    (o.add i).Counts fun j => n j + if i = j then 1 else 0 := by
  refine ⟨⟨fun j => ?_, ?_, fun j hj => ?_⟩, fun j hj => ?_⟩
  · simp only [Occupancy.add, Std.TreeMap.getElem?_insert, h.count_eq, Std.compare_eq_iff_eq]
    by_cases hij : i = j
    · simp [hij]
    · simp [hij, h.counts_eq j]
  · simp only [Occupancy.add]
    split
    · exact pairwise_push h.sorted i
    · exact h.sorted
  · simp only [Occupancy.add, h.count_eq]
    split
    · rw [mem_push]
      by_cases hij : i = j
      · exact Or.inl hij.symm
      · exact Or.inr (h.mem_heap j (by simpa [hij] using hj))
    · rename_i hi
      by_cases hij : i = j
      · exact h.mem_heap j (by rw [← hij]; omega)
      · exact h.mem_heap j (by simpa [hij] using hj)
  · simp only [Occupancy.add] at hj
    have htop : j = i ∨ j ∈ o.heap.head? := by
      split at hj
      · exact head?_push hj
      · exact Or.inr hj
    rcases htop with rfl | htop
    · simp
    · have := h.top j htop
      omega

theorem Counts.remove {i : Nat} (h : o.Counts fun j => n j + if i = j then 1 else 0) :
    (o.remove i).Counts n := by
  have hi : o.counts[i]? = some (n i + 1) := by simp [h.counts_eq]
  unfold Occupancy.remove
  rw [hi]
  refine Holds.prune ⟨fun j => ?_, h.sorted, fun j hj => h.mem_heap j (by omega)⟩
  simp only [Nat.add_sub_cancel]
  by_cases hij : i = j
  · subst hij
    split
    · simp [*]
    · simp [*]
  · have hj : o.counts[j]? = if n j = 0 then none else some (n j) := by simp [h.counts_eq j, hij]
    split
    · rw [Std.TreeMap.getElem?_erase, if_neg (by simpa using hij), hj]
    · rw [Std.TreeMap.getElem?_insert, if_neg (by simpa using hij), hj]

/-! ## The last row -/

theorem Counts.last?_eq_some_iff (h : o.Counts n) {i : Nat} :
    o.last? = some i ↔ 0 < n i ∧ ∀ j, 0 < n j → j ≤ i := by
  have hle {top : Nat} (htop : o.heap.head? = some top) {j : Nat} (hj : j ∈ o.heap) : j ≤ top := by
    obtain ⟨rest, hheap⟩ := List.head?_eq_some_iff.1 htop
    have hsorted := h.sorted
    rw [hheap] at hj hsorted
    rcases List.mem_cons.1 hj with rfl | hj
    · exact Nat.le_refl j
    · exact (List.pairwise_cons.1 hsorted).1 j hj
  constructor
  · intro hi
    exact ⟨h.top i hi, fun j hj => hle hi (h.mem_heap j hj)⟩
  · rintro ⟨hi, hmax⟩
    have hmem := h.mem_heap i hi
    rcases htop : o.heap.head? with _ | top
    · rw [List.head?_eq_none_iff.1 htop] at hmem
      exact absurd hmem List.not_mem_nil
    · rw [last?, htop, Nat.le_antisymm (hmax top (h.top top htop)) (hle htop hmem)]

theorem Counts.last?_eq_none_iff (h : o.Counts n) : o.last? = none ↔ ∀ i, n i = 0 := by
  rw [last?, List.head?_eq_none_iff]
  constructor
  · intro hempty i
    by_contra hi
    have hmem := h.mem_heap i (Nat.pos_of_ne_zero hi)
    rw [hempty] at hmem
    exact List.not_mem_nil hmem
  · intro hzero
    rw [← List.head?_eq_none_iff, Option.eq_none_iff_forall_ne_some]
    intro top htop
    have := h.top top htop
    rw [hzero] at this
    exact Nat.lt_irrefl 0 this

theorem Counts.last?_congr {o' : Occupancy} (h : o.Counts n) (h' : o'.Counts n) :
    o.last? = o'.last? := by
  apply Option.ext
  intro i
  rw [h.last?_eq_some_iff, h'.last?_eq_some_iff]

end Spreadsheet.Occupancy
