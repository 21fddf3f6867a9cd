import Mathlib.Logic.Relation
import Mathlib.Data.List.Find
import Mathlib.Order.Basic
import Spreadsheet.Graph.Components

/-!
# The invariant of the component search

The search keeps its active nodes on a stack in order of discovery. Between two frames of the list
of frames lie the nodes whose edges have all been followed since the upper of the two was entered:
they are covered by the lower one. What makes the search correct is that a covered node reaches the
node of its frame, and that the low number of that frame is at most the number of every active node
to which an edge of a covered node leads.

Results:
* `Search.Exploring` is the invariant.
* `Exploring.enter`, `Exploring.dropEdge`, `Exploring.lower` and `Exploring.finish` are the steps.
* `exploring_explore`: the invariant holds when no frame is left.
-/

namespace Spreadsheet

/-! ## Paths -/

namespace Adjacency

/-- There is an edge from `v` to `w`. -/
def Edge (edges : Adjacency) (v w : Nat) : Prop := w ∈ edges.next v

/-- There is a path from `v` to `w`, perhaps without any edge. -/
def Reaches (edges : Adjacency) : Nat → Nat → Prop := Relation.ReflTransGen edges.Edge

/-- Every edge leads to a node. -/
def InBounds (edges : Adjacency) : Prop := ∀ v, ∀ w ∈ edges.next v, w < edges.size

theorem next_of_le {edges : Adjacency} {v : Nat} (h : edges.size ≤ v) : edges.next v = [] := by
  simp [next, h]

theorem lt_of_edge {edges : Adjacency} {v w : Nat} (h : edges.Edge v w) : v < edges.size := by
  by_contra hv
  simp [Edge, next_of_le (Nat.le_of_not_lt hv)] at h

theorem Reaches.refl {edges : Adjacency} (v : Nat) : edges.Reaches v v :=
  Relation.ReflTransGen.refl

theorem Reaches.trans {edges : Adjacency} {u v w : Nat} (h₁ : edges.Reaches u v)
    (h₂ : edges.Reaches v w) : edges.Reaches u w :=
  Relation.ReflTransGen.trans h₁ h₂

theorem Reaches.edge {edges : Adjacency} {v w : Nat} (h : edges.Edge v w) : edges.Reaches v w :=
  Relation.ReflTransGen.single h

end Adjacency

namespace Search

/-! ## Reading the marks -/

/-- The node has been reached and is in no component yet. -/
def Active (s : Search) (v : Nat) : Prop := ∃ n l, s.marks[v]? = some (.active n l)

/-- The node is in the component `c`. -/
def Placed (s : Search) (v c : Nat) : Prop := s.marks[v]? = some (.placed c)

/-- The number of an active node in order of discovery. -/
def number (s : Search) (v : Nat) : Nat :=
  match s.marks[v]? with
  | some (.active n _) => n
  | _ => 0

/-- The least number known to be in the component of an active node. -/
def low (s : Search) (v : Nat) : Nat :=
  match s.marks[v]? with
  | some (.active _ l) => l
  | _ => 0

theorem Active.mark {s : Search} {v : Nat} (h : s.Active v) :
    s.marks[v]? = some (.active (s.number v) (s.low v)) := by
  obtain ⟨n, l, hv⟩ := h
  simp [number, low, hv]

theorem Placed.unique {s : Search} {v c d : Nat} (h₁ : s.Placed v c) (h₂ : s.Placed v d) :
    c = d := by
  rw [Placed] at h₁ h₂
  simpa [h₁] using h₂

/-- A node of the graph is in one of three conditions. -/
theorem unseen_or_active_or_placed {s : Search} {v : Nat} (h : v < s.marks.size) :
    s.marks[v]? = some .unseen ∨ s.Active v ∨ ∃ c, s.Placed v c := by
  have hv : s.marks[v]? = some s.marks[v] := by simp [h]
  rcases hm : s.marks[v] with _ | ⟨n, l⟩ | c
  · exact Or.inl (by rw [hv, hm])
  · exact Or.inr (Or.inl ⟨n, l, by rw [hv, hm]⟩)
  · exact Or.inr (Or.inr ⟨c, by rw [Placed, hv, hm]⟩)

theorem lt_size_of_active {s : Search} {v : Nat} (h : s.Active v) : v < s.marks.size := by
  have hv := h.mark
  by_contra hlt
  rw [Array.getElem?_eq_none (by omega)] at hv
  simp at hv

/-! ## Discovering a node -/

theorem marks_discover {s : Search} {w : Nat} (hw : s.marks[w]? = some .unseen) (u : Nat) :
    (s.discover w).marks[u]? = if u = w then some (.active s.next s.next) else s.marks[u]? := by
  obtain ⟨hlt, -⟩ := Array.getElem?_eq_some_iff.1 hw
  simp only [discover, Array.getElem?_setIfInBounds, hlt, if_true]
  by_cases hu : u = w
  · simp [hu]
  · simp [hu, Ne.symm hu]

section Discover

variable {s : Search} {w : Nat} (hw : s.marks[w]? = some .unseen)
include hw

theorem active_discover (u : Nat) : (s.discover w).Active u ↔ u = w ∨ s.Active u := by
  by_cases hu : u = w
  · simp [Active, marks_discover hw, hu]
  · simp [Active, marks_discover hw, hu]

theorem number_discover (u : Nat) :
    (s.discover w).number u = if u = w then s.next else s.number u := by
  by_cases hu : u = w
  · simp [number, marks_discover hw, hu]
  · simp [number, marks_discover hw, hu]

theorem low_discover (u : Nat) :
    (s.discover w).low u = if u = w then s.next else s.low u := by
  by_cases hu : u = w
  · simp [low, marks_discover hw, hu]
  · simp [low, marks_discover hw, hu]

theorem placed_discover (u c : Nat) : (s.discover w).Placed u c ↔ s.Placed u c := by
  by_cases hu : u = w
  · simp [Placed, marks_discover hw, hu, hw]
  · simp [Placed, marks_discover hw, hu]

theorem not_active_of_unseen : ¬ s.Active w := by
  rintro ⟨n, l, h⟩
  simp [hw] at h

theorem number_discover_of_active {u : Nat} (hu : s.Active u) :
    (s.discover w).number u = s.number u := by
  rw [number_discover hw, if_neg]
  rintro rfl
  exact not_active_of_unseen hw hu

theorem low_discover_of_active {u : Nat} (hu : s.Active u) : (s.discover w).low u = s.low u := by
  rw [low_discover hw, if_neg]
  rintro rfl
  exact not_active_of_unseen hw hu

end Discover

/-! ## Lowering a number -/

theorem lower_eq {s : Search} {v : Nat} (hv : s.Active v) (n : Nat) :
    s.lower v n =
      { s with marks := s.marks.setIfInBounds v (.active (s.number v) (min (s.low v) n)) } := by
  simp [lower, hv.mark]

theorem marks_lower {s : Search} {v : Nat} (hv : s.Active v) (n u : Nat) :
    (s.lower v n).marks[u]? =
      if u = v then some (.active (s.number v) (min (s.low v) n)) else s.marks[u]? := by
  have hlt := lt_size_of_active hv
  simp only [lower, hv.mark, Array.getElem?_setIfInBounds, hlt, if_true]
  by_cases hu : u = v
  · simp [hu]
  · simp [hu, Ne.symm hu]

theorem stack_lower (s : Search) (v n : Nat) : (s.lower v n).stack = s.stack := by
  unfold lower; split <;> rfl

theorem done_lower (s : Search) (v n : Nat) : (s.lower v n).done = s.done := by
  unfold lower; split <;> rfl

theorem next_lower (s : Search) (v n : Nat) : (s.lower v n).next = s.next := by
  unfold lower; split <;> rfl

theorem size_lower (s : Search) (v n : Nat) : (s.lower v n).marks.size = s.marks.size := by
  unfold lower; split <;> simp

section Lower

variable {s : Search} {v : Nat} (hv : s.Active v) (n : Nat)
include hv

theorem active_lower (u : Nat) : (s.lower v n).Active u ↔ s.Active u := by
  by_cases hu : u = v
  · simp [Active, marks_lower hv, hu, hv.mark]
  · simp [Active, marks_lower hv, hu]

theorem number_lower (u : Nat) : (s.lower v n).number u = s.number u := by
  by_cases hu : u = v
  · rw [number, marks_lower hv, if_pos hu, hu]
  · simp [number, marks_lower hv, hu]

theorem low_lower (u : Nat) :
    (s.lower v n).low u = if u = v then min (s.low v) n else s.low u := by
  by_cases hu : u = v
  · rw [low, marks_lower hv, if_pos hu, if_pos hu]
  · simp [low, marks_lower hv, hu]

theorem low_lower_le (u : Nat) : (s.lower v n).low u ≤ s.low u := by
  rw [low_lower hv]
  split_ifs with hu
  · rw [hu]; exact Nat.min_le_left ..
  · exact Nat.le_refl _

theorem placed_lower (u c : Nat) : (s.lower v n).Placed u c ↔ s.Placed u c := by
  by_cases hu : u = v
  · simp [Placed, marks_lower hv, hu, hv.mark]
  · simp [Placed, marks_lower hv, hu]

end Lower

theorem inherit_cons {s : Search} {v : Nat} (hv : s.Active v) (f : Frame) (frames : List Frame) :
    s.inherit v (f :: frames) = s.lower f.node (s.low v) := by
  simp [inherit, hv.mark]

/-! ## Placing a component -/

theorem getElem?_foldl_setIfInBounds (members : List Nat) (m : Mark) (marks : Array Mark)
    (u : Nat) :
    (members.foldl (·.setIfInBounds · m) marks)[u]? =
      if u ∈ members ∧ u < marks.size then some m else marks[u]? := by
  induction members generalizing marks with
  | nil => simp
  | cons v members ih =>
    rw [List.foldl_cons, ih, Array.size_setIfInBounds, Array.getElem?_setIfInBounds]
    by_cases hlt : u < marks.size
    · by_cases hu : v = u
      · simp [hu, hlt]
      · by_cases hm : u ∈ members <;> simp [hu, hm, hlt, Ne.symm hu]
    · by_cases hu : v = u
      · simp [hu, hlt]
      · simp [hu, hlt]

theorem size_foldl_setIfInBounds (members : List Nat) (m : Mark) (marks : Array Mark) :
    (members.foldl (·.setIfInBounds · m) marks).size = marks.size := by
  induction members generalizing marks with
  | nil => rfl
  | cons v members ih => rw [List.foldl_cons, ih, Array.size_setIfInBounds]

/-- The nodes on the stack down to `v`. -/
def segment (s : Search) (v : Nat) : List Nat := s.stack.takeWhile (· != v) ++ [v]

/-- The search after the nodes down to `v` have become a component. -/
def place (s : Search) (v : Nat) : Search :=
  { s with
    marks := (s.segment v).foldl (·.setIfInBounds · (.placed s.done.size)) s.marks
    stack := (s.stack.dropWhile (· != v)).drop 1
    done := s.done.push (s.segment v) }

theorem finish_of_root {s : Search} {v : Nat} (hv : s.Active v) (h : s.low v = s.number v) :
    s.finish v = s.place v := by
  simp [finish, hv.mark, h, place, segment]

theorem finish_of_low_lt {s : Search} {v : Nat} (hv : s.Active v) (h : s.low v < s.number v) :
    s.finish v = s := by
  simp [finish, hv.mark, Nat.ne_of_lt h]

theorem takeWhile_ne_append {pre post : List Nat} {v : Nat} (h : v ∉ pre) :
    (pre ++ v :: post).takeWhile (· != v) = pre := by
  induction pre with
  | nil => simp
  | cons u pre ih =>
    obtain ⟨hu, hpre⟩ := not_or.1 (mt List.mem_cons.2 h)
    simp [ih hpre, Ne.symm hu]

theorem dropWhile_ne_append {pre post : List Nat} {v : Nat} (h : v ∉ pre) :
    (pre ++ v :: post).dropWhile (· != v) = v :: post := by
  induction pre with
  | nil => simp
  | cons u pre ih =>
    obtain ⟨hu, hpre⟩ := not_or.1 (mt List.mem_cons.2 h)
    simp [ih hpre, Ne.symm hu]

/-! ## The invariant -/

/-- The nodes of the frames. -/
def nodes (frames : List Frame) : List Nat := frames.map Frame.node

@[simp]
theorem nodes_nil : nodes [] = [] := rfl

@[simp]
theorem nodes_cons (f : Frame) (frames : List Frame) :
    nodes (f :: frames) = f.node :: nodes frames := rfl

theorem node_mem_nodes {f : Frame} {frames : List Frame} (h : f ∈ frames) :
    f.node ∈ nodes frames :=
  List.mem_map_of_mem h

/-- The node of the first frame that was entered no later than `u` was discovered. -/
def cover (s : Search) (frames : List Frame) (u : Nat) : Option Nat :=
  (nodes frames).find? fun v => s.number v ≤ s.number u

/-- The edge from `u` to `w` still has to be followed. -/
def Pending (frames : List Frame) (u w : Nat) : Prop :=
  ∃ f ∈ frames, f.node = u ∧ w ∈ f.edges

/-- What is known of the target `w` of an edge that has been followed, by a node that the frame of
    `v` covers. -/
def Followed (s : Search) (v w : Nat) : Prop :=
  (∃ c, s.Placed w c) ∨ s.Active w ∧ s.low v ≤ s.number w

/-- The state of a search that works through `frames`. -/
structure Exploring (edges : Adjacency) (s : Search) (frames : List Frame) : Prop where
  size_eq : s.marks.size = edges.size
  mem_stack : ∀ v, v ∈ s.stack ↔ s.Active v
  stack_sorted : s.stack.Pairwise fun u v => s.number v < s.number u
  number_lt : ∀ v, s.Active v → s.number v < s.next
  mem_done : ∀ v c, s.Placed v c ↔ ∃ members, s.done[c]? = some members ∧ v ∈ members
  done_nodup : ∀ members ∈ s.done, members ≠ [] ∧ members.Nodup
  placed_edge : ∀ v c w, s.Placed v c → edges.Edge v w → ∃ d, d ≤ c ∧ s.Placed w d
  placed_reaches : ∀ u v c, s.Placed u c → s.Placed v c → edges.Reaches u v
  frame_active : ∀ v ∈ nodes frames, s.Active v
  frames_sorted : (nodes frames).Pairwise fun u v => s.number v < s.number u
  frame_edges : ∀ f ∈ frames, ∀ w ∈ f.edges, edges.Edge f.node w
  frame_reaches : ∀ v ∈ nodes frames, ∀ u, s.Active u → s.number v ≤ s.number u → edges.Reaches v u
  low_le : ∀ v ∈ nodes frames, s.low v ≤ s.number v
  low_reached : ∀ v ∈ nodes frames, ∃ u, s.Active u ∧ s.number u = s.low v ∧ edges.Reaches v u
  covered : ∀ u, s.Active u → ∃ v, s.cover frames u = some v ∧ edges.Reaches u v
  followed : ∀ u v w, s.Active u → s.cover frames u = some v → edges.Edge u w →
    ¬ Pending frames u w → s.Followed v w

namespace Exploring

variable {edges : Adjacency} {s : Search} {frames : List Frame}

theorem stack_nodup (h : Exploring edges s frames) : s.stack.Nodup := by
  apply h.stack_sorted.imp
  intro u v hlt heq
  rw [heq] at hlt
  exact Nat.lt_irrefl _ hlt

/-- The stack above, at and below an active node. -/
theorem exists_stack_eq (h : Exploring edges s frames) {v : Nat} (hv : s.Active v) :
    ∃ post, s.stack = s.stack.takeWhile (· != v) ++ v :: post ∧
      (s.stack.dropWhile (· != v)).drop 1 = post ∧
      (∀ u ∈ s.stack.takeWhile (· != v), s.number v < s.number u) ∧
      ∀ u ∈ post, s.number u < s.number v := by
  obtain ⟨pre, post, hstack, hnot⟩ := List.eq_append_cons_of_mem ((h.mem_stack v).2 hv)
  have hsorted := h.stack_sorted
  rw [hstack] at hsorted ⊢
  obtain ⟨-, hpost, hpre⟩ := List.pairwise_append.1 hsorted
  rw [takeWhile_ne_append hnot, dropWhile_ne_append hnot]
  exact ⟨post, rfl, rfl, fun u hu => hpre u hu v List.mem_cons_self,
    (List.pairwise_cons.1 hpost).1⟩

theorem mem_segment (h : Exploring edges s frames) {v : Nat} (hv : s.Active v) (u : Nat) :
    u ∈ s.segment v ↔ s.Active u ∧ s.number v ≤ s.number u := by
  obtain ⟨post, hstack, -, habove, hbelow⟩ := h.exists_stack_eq hv
  rw [← h.mem_stack, segment]
  constructor
  · intro hu
    rcases List.mem_append.1 hu with hm | hm
    · refine ⟨?_, Nat.le_of_lt (habove u hm)⟩
      rw [hstack]
      exact List.mem_append_left _ hm
    · rw [List.mem_singleton.1 hm]
      exact ⟨(h.mem_stack v).2 hv, Nat.le_refl _⟩
  · rintro ⟨hu, hle⟩
    rw [hstack] at hu
    rcases List.mem_append.1 hu with hm | hm
    · exact List.mem_append_left _ hm
    · rcases List.mem_cons.1 hm with rfl | hm
      · simp
      · have := hbelow u hm
        omega

theorem mem_rest (h : Exploring edges s frames) {v : Nat} (hv : s.Active v) (u : Nat) :
    u ∈ (s.stack.dropWhile (· != v)).drop 1 ↔ s.Active u ∧ s.number u < s.number v := by
  obtain ⟨post, hstack, hdrop, habove, hbelow⟩ := h.exists_stack_eq hv
  rw [hdrop, ← h.mem_stack]
  constructor
  · intro hu
    refine ⟨?_, hbelow u hu⟩
    rw [hstack]
    simp [hu]
  · rintro ⟨hu, hlt⟩
    rw [hstack] at hu
    rcases List.mem_append.1 hu with hm | hm
    · have := habove u hm
      omega
    · rcases List.mem_cons.1 hm with rfl | hm
      · omega
      · exact hm

theorem segment_nodup (h : Exploring edges s frames) {v : Nat} (hv : s.Active v) :
    (s.segment v).Nodup := by
  obtain ⟨post, hstack, -⟩ := h.exists_stack_eq hv
  have hnodup := h.stack_nodup
  rw [hstack, ← List.singleton_append, ← List.append_assoc] at hnodup
  exact (List.nodup_append.1 hnodup).1

theorem marks_place_of_le (h : Exploring edges s frames) {u v : Nat} (hv : s.Active v)
    (hu : s.Active u) (hle : s.number v ≤ s.number u) :
    (s.place v).marks[u]? = some (.placed s.done.size) := by
  rw [place, getElem?_foldl_setIfInBounds,
    if_pos ⟨(h.mem_segment hv u).2 ⟨hu, hle⟩, lt_size_of_active hu⟩]

theorem marks_place_of_not (h : Exploring edges s frames) {u v : Nat} (hv : s.Active v)
    (hu : ¬ (s.Active u ∧ s.number v ≤ s.number u)) : (s.place v).marks[u]? = s.marks[u]? := by
  rw [place, getElem?_foldl_setIfInBounds, if_neg fun hc => hu ((h.mem_segment hv u).1 hc.1)]

theorem active_place (h : Exploring edges s frames) {v : Nat} (hv : s.Active v) (u : Nat) :
    (s.place v).Active u ↔ s.Active u ∧ s.number u < s.number v := by
  by_cases hu : s.Active u ∧ s.number v ≤ s.number u
  · have hnot : ¬ (s.place v).Active u := by
      simp [Active, h.marks_place_of_le hv hu.1 hu.2]
    simp only [hnot, false_iff, not_and]
    omega
  · rw [Active, h.marks_place_of_not hv hu]
    constructor
    · intro ha
      exact ⟨ha, Nat.lt_of_not_le fun hle => hu ⟨ha, hle⟩⟩
    · exact And.left

theorem number_place (h : Exploring edges s frames) {u v : Nat} (hv : s.Active v)
    (hu : s.number u < s.number v) : (s.place v).number u = s.number u := by
  rw [number, h.marks_place_of_not hv fun hc => by omega, number]

theorem low_place (h : Exploring edges s frames) {u v : Nat} (hv : s.Active v)
    (hu : s.number u < s.number v) : (s.place v).low u = s.low u := by
  rw [low, h.marks_place_of_not hv fun hc => by omega, low]

theorem placed_place (h : Exploring edges s frames) {v : Nat} (hv : s.Active v) (u c : Nat) :
    (s.place v).Placed u c ↔
      s.Placed u c ∨ s.Active u ∧ s.number v ≤ s.number u ∧ c = s.done.size := by
  by_cases hu : s.Active u ∧ s.number v ≤ s.number u
  · simp [Placed, h.marks_place_of_le hv hu.1 hu.2, hu.1.mark, hu, eq_comm]
  · rw [Placed, h.marks_place_of_not hv hu]
    constructor
    · exact Or.inl
    · rintro (hp | ⟨ha, hle, -⟩)
      · exact hp
      · exact absurd ⟨ha, hle⟩ hu

theorem lt_done_of_placed (h : Exploring edges s frames) {v c : Nat} (hv : s.Placed v c) :
    c < s.done.size := by
  obtain ⟨members, hc, -⟩ := (h.mem_done v c).1 hv
  exact (Array.getElem?_eq_some_iff.1 hc).1

/-! ## Steps -/

/-- The first frame covers its own node and everything discovered after it. -/
theorem cover_cons {f : Frame} {u : Nat} (hle : s.number f.node ≤ s.number u) :
    s.cover (f :: frames) u = some f.node := by
  simp [cover, hle]

theorem cover_cons_of_lt {f : Frame} {u : Nat} (hlt : s.number u < s.number f.node) :
    s.cover (f :: frames) u = s.cover frames u := by
  simp [cover, hlt]

theorem mem_nodes_of_cover {u v : Nat} (hc : s.cover frames u = some v) : v ∈ nodes frames :=
  List.mem_of_find?_eq_some hc

theorem cover_congr {s' : Search} {u : Nat} (hnodes : ∀ v ∈ nodes frames, s'.number v = s.number v)
    (hu : s'.number u = s.number u) : s'.cover frames u = s.cover frames u := by
  unfold cover
  apply List.find?_congr
  intro v hv
  rw [hnodes v hv, hu]

/-- An edge that has been followed is taken off its frame. -/
theorem dropEdge (pre : List Frame) {post : List Frame} {v w : Nat} {ws : List Nat}
    (h : Exploring edges s (pre ++ ⟨v, w :: ws⟩ :: post))
    (hw : ∀ x, s.cover (pre ++ ⟨v, w :: ws⟩ :: post) v = some x → s.Followed x w) :
    Exploring edges s (pre ++ ⟨v, ws⟩ :: post) := by
  have hnodes : nodes (pre ++ ⟨v, ws⟩ :: post) = nodes (pre ++ ⟨v, w :: ws⟩ :: post) := by
    simp [nodes]
  have hcover : ∀ u, s.cover (pre ++ ⟨v, ws⟩ :: post) u =
      s.cover (pre ++ ⟨v, w :: ws⟩ :: post) u := by
    intro u
    rw [cover, hnodes, cover]
  refine { h with
    frame_active := by rw [hnodes]; exact h.frame_active
    frames_sorted := by rw [hnodes]; exact h.frames_sorted
    frame_edges := ?_
    frame_reaches := by rw [hnodes]; exact h.frame_reaches
    low_le := by rw [hnodes]; exact h.low_le
    low_reached := by rw [hnodes]; exact h.low_reached
    covered := by simpa only [hcover] using h.covered
    followed := ?_ }
  · intro f hf y hy
    rcases List.mem_append.1 hf with hm | hm
    · exact h.frame_edges f (List.mem_append_left _ hm) y hy
    · rcases List.mem_cons.1 hm with rfl | hm
      · exact h.frame_edges ⟨v, w :: ws⟩ (by simp) y (List.mem_cons_of_mem _ hy)
      · exact h.frame_edges f (by simp [hm]) y hy
  · intro u x y hu hc hedge hnot
    rw [hcover] at hc
    by_cases hp : Pending (pre ++ ⟨v, w :: ws⟩ :: post) u y
    · -- the only edge that is not pending any more is the one taken off
      obtain ⟨f, hf, hfu, hy⟩ := hp
      rcases List.mem_append.1 hf with hm | hm
      · exact absurd ⟨f, List.mem_append_left _ hm, hfu, hy⟩ hnot
      · rcases List.mem_cons.1 hm with rfl | hm
        · rcases List.mem_cons.1 hy with rfl | hy
          · rw [← hfu] at hc
            exact hw x hc
          · exact absurd ⟨⟨v, ws⟩, by simp, hfu, hy⟩ hnot
        · exact absurd ⟨f, by simp [hm], hfu, hy⟩ hnot
    · exact h.followed u x y hu hc hedge hp

/-- The low number of a frame is lowered to the number of an active node that it reaches. -/
theorem lower (h : Exploring edges s frames) {u v : Nat} (hv : v ∈ nodes frames)
    (hu : s.Active u) (hreach : edges.Reaches v u) :
    Exploring edges (s.lower v (s.number u)) frames := by
  have hva := h.frame_active v hv
  have hcover : ∀ x, (s.lower v (s.number u)).cover frames x = s.cover frames x := fun x =>
    cover_congr (fun y _ => number_lower hva _ y) (number_lower hva _ x)
  constructor
  · rw [size_lower]; exact h.size_eq
  · simpa only [stack_lower, active_lower hva] using h.mem_stack
  · simpa only [stack_lower, number_lower hva] using h.stack_sorted
  · simpa only [active_lower hva, number_lower hva, next_lower] using h.number_lt
  · simpa only [placed_lower hva, done_lower] using h.mem_done
  · simpa only [done_lower] using h.done_nodup
  · simpa only [placed_lower hva] using h.placed_edge
  · simpa only [placed_lower hva] using h.placed_reaches
  · simpa only [active_lower hva] using h.frame_active
  · simpa only [number_lower hva] using h.frames_sorted
  · exact h.frame_edges
  · simpa only [active_lower hva, number_lower hva] using h.frame_reaches
  · intro x hx
    rw [number_lower hva]
    exact Nat.le_trans (low_lower_le hva _ x) (h.low_le x hx)
  · intro x hx
    obtain ⟨y, hy, hny, hxy⟩ := h.low_reached x hx
    simp only [active_lower hva, number_lower hva, low_lower hva]
    by_cases hxv : x = v
    · rw [if_pos hxv]
      rcases Nat.le_total (s.low v) (s.number u) with hle | hle
      · rw [Nat.min_eq_left hle, ← hxv]
        exact ⟨y, hy, hny, hxy⟩
      · rw [Nat.min_eq_right hle, hxv]
        exact ⟨u, hu, rfl, hreach⟩
    · rw [if_neg hxv]
      exact ⟨y, hy, hny, hxy⟩
  · simpa only [active_lower hva, hcover] using h.covered
  · intro x y z hx hc hedge hnot
    rw [active_lower hva] at hx
    rw [hcover] at hc
    rcases h.followed x y z hx hc hedge hnot with ⟨c, hz⟩ | ⟨hz, hle⟩
    · exact Or.inl ⟨c, (placed_lower hva _ z c).2 hz⟩
    · refine Or.inr ⟨(active_lower hva _ z).2 hz, ?_⟩
      rw [number_lower hva]
      exact Nat.le_trans (low_lower_le hva _ y) hle

section Enter

variable (h : Exploring edges s frames) {w : Nat}
include h

/-- Every frame reaches what the first one has an edge to. -/
theorem frame_reaches_of_edge (hedge : ∀ f ∈ frames.head?, edges.Edge f.node w) {v : Nat}
    (hv : v ∈ nodes frames) : edges.Reaches v w := by
  cases frames with
  | nil => simp at hv
  | cons f frames =>
    refine .trans (h.frame_reaches v hv f.node (h.frame_active _ List.mem_cons_self) ?_)
      (.edge (hedge f rfl))
    rcases List.mem_cons.1 hv with rfl | hv
    · exact Nat.le_refl _
    · exact Nat.le_of_lt ((List.pairwise_cons.1 h.frames_sorted).1 v hv)

variable (hw : s.marks[w]? = some .unseen)
include hw

/-- What was active is covered as before. -/
theorem cover_enter {u : Nat} (hu : s.Active u) :
    (s.discover w).cover (⟨w, edges.next w⟩ :: frames) u = s.cover frames u := by
  have hlt : (s.discover w).number u < (s.discover w).number w := by
    rw [number_discover_of_active hw hu, number_discover hw, if_pos rfl]
    exact h.number_lt u hu
  rw [cover_cons_of_lt hlt]
  exact cover_congr (fun v hv => number_discover_of_active hw (h.frame_active v hv))
    (number_discover_of_active hw hu)

theorem frame_reaches_enter (hedge : ∀ f ∈ frames.head?, edges.Edge f.node w) :
    ∀ v ∈ nodes (⟨w, edges.next w⟩ :: frames), ∀ u, (s.discover w).Active u →
      (s.discover w).number v ≤ (s.discover w).number u → edges.Reaches v u := by
  intro v hv u hu hle
  rcases (active_discover hw u).1 hu with rfl | hua
  · rcases List.mem_cons.1 hv with rfl | hv
    · exact .refl _
    · exact h.frame_reaches_of_edge hedge hv
  · rcases List.mem_cons.1 hv with rfl | hv
    · have hnumber := h.number_lt u hua
      rw [number_discover hw, if_pos rfl, number_discover_of_active hw hua] at hle
      omega
    · rw [number_discover_of_active hw (h.frame_active v hv), number_discover_of_active hw hua]
        at hle
      exact h.frame_reaches v hv u hua hle

theorem low_reached_enter :
    ∀ v ∈ nodes (⟨w, edges.next w⟩ :: frames), ∃ u, (s.discover w).Active u ∧
      (s.discover w).number u = (s.discover w).low v ∧ edges.Reaches v u := by
  intro v hv
  rcases List.mem_cons.1 hv with rfl | hv
  · refine ⟨v, (active_discover hw v).2 (Or.inl rfl), ?_, .refl _⟩
    rw [number_discover hw, low_discover hw, if_pos rfl, if_pos rfl]
  · obtain ⟨u, hu, hnu, hvu⟩ := h.low_reached v hv
    refine ⟨u, (active_discover hw u).2 (Or.inr hu), ?_, hvu⟩
    rw [number_discover_of_active hw hu, low_discover_of_active hw (h.frame_active v hv), hnu]

/-- All edges of the new node are pending. -/
theorem followed_enter {u x y : Nat} (hu : (s.discover w).Active u)
    (hc : (s.discover w).cover (⟨w, edges.next w⟩ :: frames) u = some x) (hedge : edges.Edge u y)
    (hnot : ¬ Pending (⟨w, edges.next w⟩ :: frames) u y) : (s.discover w).Followed x y := by
  rcases (active_discover hw u).1 hu with rfl | hua
  · exact absurd ⟨⟨u, edges.next u⟩, List.mem_cons_self, rfl, hedge⟩ hnot
  · rw [h.cover_enter hw hua] at hc
    have hold : ¬ Pending frames u y := by
      rintro ⟨f, hf, hfu, hy⟩
      exact hnot ⟨f, List.mem_cons_of_mem _ hf, hfu, hy⟩
    rcases h.followed u x y hua hc hedge hold with ⟨c, hy⟩ | ⟨hy, hle⟩
    · exact Or.inl ⟨c, (placed_discover hw y c).2 hy⟩
    · refine Or.inr ⟨(active_discover hw y).2 (Or.inr hy), ?_⟩
      rwa [low_discover_of_active hw (h.frame_active x (mem_nodes_of_cover hc)),
        number_discover_of_active hw hy]

/-- A node not reached is put in front, if the first frame has an edge to it. -/
theorem enter (hedge : ∀ f ∈ frames.head?, edges.Edge f.node w) :
    Exploring edges (s.discover w) (⟨w, edges.next w⟩ :: frames) := by
  have hnumber {u : Nat} (hu : s.Active u) : (s.discover w).number u = s.number u :=
    number_discover_of_active hw hu
  have hnew : (s.discover w).number w = s.next := by rw [number_discover hw, if_pos rfl]
  constructor
  · simpa [discover] using h.size_eq
  · intro v
    rw [active_discover hw, ← h.mem_stack]
    simp [discover]
  · refine List.pairwise_cons.2 ⟨?_, ?_⟩
    · intro u hu
      have hua := (h.mem_stack u).1 hu
      rw [hnew, hnumber hua]
      exact h.number_lt u hua
    · refine h.stack_sorted.imp_of_mem ?_
      intro u v hu hv hlt
      rwa [hnumber ((h.mem_stack u).1 hu), hnumber ((h.mem_stack v).1 hv)]
  · intro u hu
    rcases (active_discover hw u).1 hu with rfl | hu
    · rw [hnew]; exact Nat.lt_succ_self _
    · rw [hnumber hu]; exact Nat.lt_succ_of_lt (h.number_lt u hu)
  · intro v c
    rw [placed_discover hw]
    exact h.mem_done v c
  · exact h.done_nodup
  · simpa only [placed_discover hw] using h.placed_edge
  · simpa only [placed_discover hw] using h.placed_reaches
  · intro v hv
    rw [active_discover hw]
    rcases List.mem_cons.1 hv with rfl | hv
    · exact Or.inl rfl
    · exact Or.inr (h.frame_active v hv)
  · refine List.pairwise_cons.2 ⟨?_, ?_⟩
    · intro v hv
      have hva := h.frame_active v hv
      rw [hnew, hnumber hva]
      exact h.number_lt v hva
    · refine h.frames_sorted.imp_of_mem ?_
      intro u v hu hv hlt
      rwa [hnumber (h.frame_active u hu), hnumber (h.frame_active v hv)]
  · intro f hf y hy
    rcases List.mem_cons.1 hf with rfl | hf
    · exact hy
    · exact h.frame_edges f hf y hy
  · exact h.frame_reaches_enter hw hedge
  · intro v hv
    rcases List.mem_cons.1 hv with rfl | hv
    · rw [hnew, low_discover hw, if_pos rfl]
    · rw [low_discover_of_active hw (h.frame_active v hv), hnumber (h.frame_active v hv)]
      exact h.low_le v hv
  · exact h.low_reached_enter hw
  · intro u hu
    rcases (active_discover hw u).1 hu with rfl | hua
    · exact ⟨u, cover_cons (Nat.le_refl _), .refl _⟩
    · rw [h.cover_enter hw hua]
      exact h.covered u hua
  · intro u x y hu hc huy hnot
    exact h.followed_enter hw hu hc huy hnot

end Enter

theorem not_pending_cons {u v w : Nat} (hnot : ¬ Pending frames u w) :
    ¬ Pending (⟨v, []⟩ :: frames) u w := by
  rintro ⟨f, hf, hfu, hw⟩
  rcases List.mem_cons.1 hf with rfl | hf
  · simp at hw
  · exact hnot ⟨f, hf, hfu, hw⟩

section Finish

variable {v : Nat} (h : Exploring edges s (⟨v, []⟩ :: frames))
include h

theorem number_lt_of_mem {x : Nat} (hx : x ∈ nodes frames) : s.number x < s.number v :=
  (List.pairwise_cons.1 h.frames_sorted).1 x hx

theorem ne_of_mem {x : Nat} (hx : x ∈ nodes frames) : v ≠ x := by
  rintro rfl
  exact Nat.lt_irrefl _ (number_lt_of_mem h hx)

/-- A node that reaches a node before it stays active, and the frame below covers what it
    covered. -/
theorem leave (hlt : s.low v < s.number v)
    (hlow : ∀ f ∈ frames.head?, s.low f.node ≤ s.low v) : Exploring edges s frames := by
  -- the node before `v` that `v` reaches is covered by one of the remaining frames
  obtain ⟨x, hx, hnx, hvx⟩ := h.low_reached v List.mem_cons_self
  obtain ⟨g, hg, hxg⟩ := h.covered x hx
  rw [cover_cons_of_lt (by simp only; omega)] at hg
  have hgmem := mem_nodes_of_cover hg
  cases frames with
  | nil => simp at hgmem
  | cons f frames =>
    have hf := number_lt_of_mem h (x := f.node) List.mem_cons_self
    have hfa := h.frame_active f.node (by simp)
    have hvf : edges.Reaches v f.node := by
      refine .trans hvx (.trans hxg (h.frame_reaches g (List.mem_cons_of_mem _ hgmem) _ hfa ?_))
      rcases List.mem_cons.1 hgmem with rfl | hm
      · exact Nat.le_refl _
      · have := (List.pairwise_cons.1 (List.pairwise_cons.1 h.frames_sorted).2).1 g hm
        omega
    refine { h with
      frame_active := fun y hy => h.frame_active y (List.mem_cons_of_mem _ hy)
      frames_sorted := (List.pairwise_cons.1 h.frames_sorted).2
      frame_edges := fun y hy => h.frame_edges y (List.mem_cons_of_mem _ hy)
      frame_reaches := fun y hy => h.frame_reaches y (List.mem_cons_of_mem _ hy)
      low_le := fun y hy => h.low_le y (List.mem_cons_of_mem _ hy)
      low_reached := fun y hy => h.low_reached y (List.mem_cons_of_mem _ hy)
      covered := ?_
      followed := ?_ }
    · intro u hu
      obtain ⟨y, hy, huy⟩ := h.covered u hu
      by_cases huv : s.number v ≤ s.number u
      · rw [cover_cons huv] at hy
        rw [← Option.some.inj hy] at huy
        exact ⟨f.node, cover_cons (by omega), .trans huy hvf⟩
      · rw [cover_cons_of_lt (by simp only; omega)] at hy
        exact ⟨y, hy, huy⟩
    · intro u y w hu hc hedge hnot
      have hold := not_pending_cons (v := v) hnot
      by_cases huv : s.number v ≤ s.number u
      · rw [cover_cons (by omega), Option.some.injEq] at hc
        subst hc
        rcases h.followed u v w hu (cover_cons huv) hedge hold with hw | ⟨hw, hle⟩
        · exact Or.inl hw
        · exact Or.inr ⟨hw, Nat.le_trans (hlow f rfl) hle⟩
      · exact h.followed u y w hu (by rwa [cover_cons_of_lt (by simp only; omega)]) hedge hold

/-- The nodes of the new component: `v` reaches them, and they reach `v`. -/
theorem reaches_of_number_le {u : Nat} (hu : s.Active u) (hle : s.number v ≤ s.number u) :
    edges.Reaches v u ∧ edges.Reaches u v := by
  refine ⟨h.frame_reaches v List.mem_cons_self u hu hle, ?_⟩
  obtain ⟨x, hx, hux⟩ := h.covered u hu
  rw [cover_cons hle, Option.some.injEq] at hx
  rwa [← hx] at hux

theorem active_frame_place {x : Nat} (hx : x ∈ nodes frames) : (s.place v).Active x :=
  (h.active_place (h.frame_active v List.mem_cons_self) x).2
    ⟨h.frame_active x (List.mem_cons_of_mem _ hx), number_lt_of_mem h hx⟩

theorem cover_place {u : Nat} (hu : (s.place v).Active u) :
    (s.place v).cover frames u = s.cover (⟨v, []⟩ :: frames) u := by
  have hva : s.Active v := h.frame_active v List.mem_cons_self
  have hlt := ((h.active_place hva u).1 hu).2
  rw [cover_cons_of_lt hlt]
  exact cover_congr (fun x hx => h.number_place hva (number_lt_of_mem h hx))
    (h.number_place hva hlt)

/-- Edges lead out of the new component to components that were finished before it. -/
theorem placed_edge_place (heq : s.low v = s.number v) {u c w : Nat}
    (hu : (s.place v).Placed u c) (hedge : edges.Edge u w) :
    ∃ d, d ≤ c ∧ (s.place v).Placed w d := by
  have hplaced := h.placed_place (h.frame_active v List.mem_cons_self)
  rcases (hplaced u c).1 hu with hu | ⟨hua, hle, rfl⟩
  · obtain ⟨d, hdc, hw⟩ := h.placed_edge u c w hu hedge
    exact ⟨d, hdc, (hplaced w d).2 (Or.inl hw)⟩
  · have hnot : ¬ Pending (⟨v, []⟩ :: frames) u w := by
      refine not_pending_cons ?_
      rintro ⟨f, hf, rfl, -⟩
      have hlt := number_lt_of_mem h (node_mem_nodes hf)
      omega
    rcases h.followed u v w hua (cover_cons hle) hedge hnot with ⟨d, hw⟩ | ⟨hwa, hlw⟩
    · exact ⟨d, Nat.le_of_lt (h.lt_done_of_placed hw), (hplaced w d).2 (Or.inl hw)⟩
    · exact ⟨_, Nat.le_refl _, (hplaced w _).2 (Or.inr ⟨hwa, by omega, rfl⟩)⟩

/-- The nodes of a component reach each other, also those of the new one. -/
theorem placed_reaches_place {u w c : Nat} (hu : (s.place v).Placed u c)
    (hw : (s.place v).Placed w c) : edges.Reaches u w := by
  have hplaced := h.placed_place (h.frame_active v List.mem_cons_self)
  rcases (hplaced u c).1 hu with hu | ⟨hua, hle, rfl⟩
  · rcases (hplaced w c).1 hw with hw | ⟨-, -, rfl⟩
    · exact h.placed_reaches u w c hu hw
    · exact absurd (h.lt_done_of_placed hu) (Nat.lt_irrefl _)
  · rcases (hplaced w _).1 hw with hw | ⟨hwa, hle', -⟩
    · exact absurd (h.lt_done_of_placed hw) (Nat.lt_irrefl _)
    · exact .trans (h.reaches_of_number_le hua hle).2 (h.reaches_of_number_le hwa hle').1

theorem followed_place {u x w : Nat} (hu : (s.place v).Active u)
    (hc : (s.place v).cover frames u = some x) (hedge : edges.Edge u w)
    (hnot : ¬ Pending frames u w) : (s.place v).Followed x w := by
  have hva : s.Active v := h.frame_active v List.mem_cons_self
  have hx := number_lt_of_mem h (mem_nodes_of_cover hc)
  rw [h.cover_place hu] at hc
  have hua := ((h.active_place hva u).1 hu).1
  rcases h.followed u x w hua hc hedge (not_pending_cons hnot) with ⟨c, hw⟩ | ⟨hw, hle⟩
  · exact Or.inl ⟨c, (h.placed_place hva w c).2 (Or.inl hw)⟩
  · by_cases hwv : s.number v ≤ s.number w
    · exact Or.inl ⟨_, (h.placed_place hva w _).2 (Or.inr ⟨hw, hwv, rfl⟩)⟩
    · refine Or.inr ⟨(h.active_place hva w).2 ⟨hw, by omega⟩, ?_⟩
      rwa [h.low_place hva hx, h.number_place hva (by omega)]

/-- A node that reaches no node before it becomes a component with everything above it on the
    stack. -/
theorem place (heq : s.low v = s.number v) : Exploring edges (s.place v) frames := by
  have hva : s.Active v := h.frame_active v List.mem_cons_self
  have hactive := h.active_place hva
  have hframe : ∀ x ∈ nodes frames, (s.place v).number x = s.number x := fun x hx =>
    h.number_place hva (number_lt_of_mem h hx)
  have hnumber : ∀ u, (s.place v).Active u → (s.place v).number u = s.number u := fun u hu =>
    h.number_place hva ((hactive u).1 hu).2
  constructor
  · rw [← h.size_eq, Search.place, size_foldl_setIfInBounds]
  · intro u
    rw [hactive, ← h.mem_rest hva]
    rfl
  · refine (h.stack_sorted.sublist
      ((List.drop_sublist ..).trans (List.dropWhile_sublist _))).imp_of_mem ?_
    intro u w hu hw hlt
    rwa [hnumber u ((hactive u).2 ((h.mem_rest hva u).1 hu)),
      hnumber w ((hactive w).2 ((h.mem_rest hva w).1 hw))]
  · intro u hu
    rw [hnumber u hu]
    exact h.number_lt u ((hactive u).1 hu).1
  · intro u c
    rw [h.placed_place hva, h.mem_done, ← and_assoc, ← h.mem_segment hva, Search.place,
      Array.getElem?_push]
    by_cases hc : c = s.done.size
    · simp [hc]
    · simp [hc]
  · intro members hm
    rcases Array.mem_push.1 hm with hm | rfl
    · exact h.done_nodup members hm
    · exact ⟨by simp [segment], h.segment_nodup hva⟩
  · exact fun u c w hu hedge => h.placed_edge_place heq hu hedge
  · exact fun u w c hu hw => h.placed_reaches_place hu hw
  · exact fun x hx => h.active_frame_place hx
  · refine (List.pairwise_cons.1 h.frames_sorted).2.imp_of_mem ?_
    intro u w hu hw hlt
    rwa [hframe u hu, hframe w hw]
  · exact fun f hf => h.frame_edges f (List.mem_cons_of_mem _ hf)
  · intro x hx u hu hle
    rw [hframe x hx, hnumber u hu] at hle
    exact h.frame_reaches x (List.mem_cons_of_mem _ hx) u ((hactive u).1 hu).1 hle
  · intro x hx
    rw [h.low_place hva (number_lt_of_mem h hx), hframe x hx]
    exact h.low_le x (List.mem_cons_of_mem _ hx)
  · intro x hx
    obtain ⟨u, hu, hnu, hxu⟩ := h.low_reached x (List.mem_cons_of_mem _ hx)
    have hle := h.low_le x (List.mem_cons_of_mem _ hx)
    have hlt := number_lt_of_mem h hx
    have huv : s.number u < s.number v := by omega
    refine ⟨u, (hactive u).2 ⟨hu, huv⟩, ?_, hxu⟩
    rw [h.number_place hva huv, h.low_place hva hlt, hnu]
  · intro u hu
    rw [h.cover_place hu]
    exact h.covered u ((hactive u).1 hu).1
  · exact fun u x w hu hc hedge hnot => h.followed_place hu hc hedge hnot

/-- The first frame has no edge left, and the frame below already knows its low number. -/
theorem finish_of_low_le (hlow : ∀ f ∈ frames.head?, s.low f.node ≤ s.low v) :
    Exploring edges (s.finish v) frames := by
  have hva : s.Active v := h.frame_active v List.mem_cons_self
  rcases Nat.lt_or_eq_of_le (h.low_le v List.mem_cons_self) with hlt | heq
  · rw [finish_of_low_lt hva hlt]
    exact h.leave hlt hlow
  · rw [finish_of_root hva heq]
    exact h.place heq

/-- The first frame has no edge left. -/
theorem finish : Exploring edges ((s.inherit v frames).finish v) frames := by
  have hva : s.Active v := h.frame_active v List.mem_cons_self
  cases frames with
  | nil => exact h.finish_of_low_le (by simp)
  | cons f frames =>
    have hlt := number_lt_of_mem h (x := f.node) List.mem_cons_self
    have hfa : s.Active f.node := h.frame_active f.node (by simp)
    have hne : v ≠ f.node := h.ne_of_mem List.mem_cons_self
    obtain ⟨x, hx, hnx, hvx⟩ := h.low_reached v List.mem_cons_self
    have hfx : edges.Reaches f.node x :=
      .trans (h.frame_reaches f.node (by simp) v hva (Nat.le_of_lt hlt)) hvx
    have hinherit : s.inherit v (f :: frames) = s.lower f.node (s.number x) := by
      rw [inherit_cons hva, hnx]
    rw [hinherit]
    refine (h.lower (by simp) hx hfx).finish_of_low_le ?_
    intro g hg
    obtain rfl : f = g := by simpa using hg
    rw [low_lower hfa, if_pos rfl, low_lower hfa, if_neg hne, hnx]
    exact Nat.min_le_right ..

end Finish

/-! ## Following an edge -/

section Follow

variable {v w : Nat} {ws : List Nat} (h : Exploring edges s (⟨v, w :: ws⟩ :: frames))
include h

theorem edge_of_cons : edges.Edge v w :=
  h.frame_edges _ List.mem_cons_self w List.mem_cons_self

/-- An edge to a node not reached puts that node in front. -/
theorem follow_unseen (hw : s.marks[w]? = some .unseen) :
    Exploring edges (s.discover w) (⟨w, edges.next w⟩ :: ⟨v, ws⟩ :: frames) := by
  have hva : s.Active v := h.frame_active v List.mem_cons_self
  have hne : v ≠ w := fun heq => not_active_of_unseen hw (heq ▸ hva)
  refine (h.enter hw (by simpa using h.edge_of_cons)).dropEdge [⟨w, edges.next w⟩] ?_
  intro x hx
  have hnv : (s.discover w).number v < (s.discover w).number w := by
    rw [number_discover hw, if_neg hne, number_discover hw, if_pos rfl]
    exact h.number_lt v hva
  rw [List.singleton_append, cover_cons_of_lt hnv, cover_cons (Nat.le_refl _),
    Option.some.injEq] at hx
  refine Or.inr ⟨(active_discover hw w).2 (Or.inl rfl), ?_⟩
  rw [← hx, low_discover hw, if_neg hne, number_discover hw, if_pos rfl]
  exact Nat.le_trans (h.low_le v List.mem_cons_self) (Nat.le_of_lt (h.number_lt v hva))

/-- An edge to an active node lowers what is known of the first frame. -/
theorem follow_active {n l : Nat} (hw : s.marks[w]? = some (.active n l)) :
    Exploring edges (s.lower v n) (⟨v, ws⟩ :: frames) := by
  have hva : s.Active v := h.frame_active v List.mem_cons_self
  have hwa : s.Active w := ⟨n, l, hw⟩
  obtain rfl : s.number w = n := by simp [number, hw]
  refine (h.lower List.mem_cons_self hwa (.edge h.edge_of_cons)).dropEdge [] ?_
  intro x hx
  rw [List.nil_append, cover_cons (Nat.le_refl _), Option.some.injEq] at hx
  refine Or.inr ⟨(active_lower hva _ w).2 hwa, ?_⟩
  rw [← hx, low_lower hva, if_pos rfl, number_lower hva]
  exact Nat.min_le_right ..

/-- Any other edge leads to a node in a component, and says nothing new. -/
theorem follow_placed (hb : edges.InBounds) (hunseen : s.marks[w]? ≠ some .unseen)
    (hactive : ∀ n l, s.marks[w]? ≠ some (.active n l)) :
    Exploring edges s (⟨v, ws⟩ :: frames) := by
  refine h.dropEdge [] ?_
  intro x _
  have hlt : w < s.marks.size := by
    rw [h.size_eq]
    exact hb v w h.edge_of_cons
  rcases unseen_or_active_or_placed hlt with hw | ⟨n, l, hw⟩ | hw
  · exact absurd hw hunseen
  · exact absurd hw (hactive n l)
  · exact Or.inl hw

end Follow

end Exploring

/-! ## Runs -/

section Explore

variable {edges : Adjacency} {s : Search} {v w : Nat} {ws : List Nat} {frames : List Frame}

theorem explore_of_unseen (hw : s.marks[w]? = some .unseen) :
    explore edges s (⟨v, w :: ws⟩ :: frames) =
      explore edges (s.discover w) (⟨w, edges.next w⟩ :: ⟨v, ws⟩ :: frames) := by
  rw [explore]
  split
  · rfl
  · simp_all
  · simp_all

theorem explore_of_active {n l : Nat} (hw : s.marks[w]? = some (.active n l)) :
    explore edges s (⟨v, w :: ws⟩ :: frames) =
      explore edges (s.lower v n) (⟨v, ws⟩ :: frames) := by
  rw [explore]
  split
  · simp_all
  · simp_all
  · simp_all

theorem explore_of_placed (hunseen : s.marks[w]? ≠ some .unseen)
    (hactive : ∀ n l, s.marks[w]? ≠ some (.active n l)) :
    explore edges s (⟨v, w :: ws⟩ :: frames) = explore edges s (⟨v, ws⟩ :: frames) := by
  rw [explore]
  split
  · simp_all
  · simp_all
  · rfl

end Explore

/-- Working through all frames keeps the invariant. -/
theorem exploring_explore {edges : Adjacency} (hb : edges.InBounds) {s : Search}
    {frames : List Frame} (h : Exploring edges s frames) :
    Exploring edges (explore edges s frames) [] := by
  fun_induction explore edges s frames with
  | case1 s => exact h
  | case2 s v frames ih => exact ih h.finish
  | case3 s v w ws frames hw _ ih => exact ih (h.follow_unseen hw)
  | case4 s v w ws frames n l hw ih => exact ih (h.follow_active hw)
  | case5 s v w ws frames hunseen hactive ih =>
    exact ih (h.follow_placed hb hunseen hactive)

end Search

end Spreadsheet
