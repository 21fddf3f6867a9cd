import Mathlib.Data.Finset.Card
import Spreadsheet.Proofs.Graph.Exactness

/-!
# The search as a recursion

Tarjan's algorithm as textbooks have it: a node calls the search for each node that its edges lead
to and that has not been reached. The call stack is then what the list of frames is for
`Search.explore`: a call that has returned is a first frame without edges. In one place the two
differ. The caller lowers its number after the component of the node it called has been popped off
the stack, where the frame below does so before. Its own node is not among the popped ones, so both
orders come to the same.

Results:
* `tarjan`: the recursive algorithm, with what it keeps of each node.
* `search_follow`: working through the edges of a node is working through its frame.
* `search_tarjan`: the recursion ends in the state in which the search with frames ends.
* `condensation_after_eq_tarjan`: the components of a graph, their order and the order in them, and
  the component of each node are those that the recursion finds.
-/

namespace Spreadsheet

/-! ## The recursive algorithm -/

/-- What the recursion keeps of a node. -/
structure Vertex where
  /-- The number of the node in order of discovery; undefined until the node is reached. -/
  index : Option Nat
  /-- The least index known to be in the component of the node. -/
  lowlink : Nat
  /-- The node is on the stack. -/
  onStack : Bool
  /-- The component that the node was put in when it left the stack. -/
  component : Nat

namespace Vertex

/-- The node is reached and goes on the stack. -/
def enter (n : Nat) (x : Vertex) : Vertex :=
  { x with index := some n, lowlink := n, onStack := true }

/-- The node reaches the node with index `n` in its component. -/
def lower (n : Nat) (x : Vertex) : Vertex :=
  { x with lowlink := min x.lowlink n }

/-- The node leaves the stack for a component. -/
def leave (component : Nat) (x : Vertex) : Vertex :=
  { x with onStack := false, component := component }

theorem index_lower (n : Nat) (x : Vertex) : (x.lower n).index = x.index := rfl

theorem index_leave (component : Nat) (x : Vertex) : (x.leave component).index = x.index := rfl

end Vertex

/-- The state of the recursion. -/
structure Tarjan where
  vertices : Array Vertex
  /-- The nodes on the stack, the latest first. -/
  stack : List Nat
  /-- The components in the order in which they were put out. -/
  components : Array (List Nat)
  /-- The next index. -/
  counter : Nat

namespace Tarjan

/-- The state before the first call. -/
def start (size : Nat) : Tarjan :=
  ⟨Array.replicate size ⟨none, 0, false, 0⟩, [], #[], 0⟩

/-- `v.index := counter; v.lowlink := counter; counter := counter + 1; push v`. -/
def enter (t : Tarjan) (v : Nat) : Tarjan :=
  { t with
    vertices := t.vertices.modify v (Vertex.enter t.counter)
    stack := v :: t.stack
    counter := t.counter + 1 }

/-- `v.lowlink := min(v.lowlink, n)`. -/
def lower (t : Tarjan) (v n : Nat) : Tarjan :=
  { t with vertices := t.vertices.modify v (Vertex.lower n) }

/-- `v.lowlink`. -/
def lowlink (t : Tarjan) (v : Nat) : Nat :=
  (t.vertices[v]?.map Vertex.lowlink).getD 0

/-- `repeat pop w; w.onStack := false; put w in the component until w = v`: the nodes afterwards,
    those popped, and those left on the stack. -/
def popTo (v component : Nat) : List Nat → Array Vertex → Array Vertex × List Nat × List Nat
  | [], vertices => (vertices, [], [])
  | w :: stack, vertices =>
    let vertices := vertices.modify w (Vertex.leave component)
    if w = v then (vertices, [w], stack)
    else
      let (vertices, members, rest) := popTo v component stack vertices
      (vertices, w :: members, rest)

/-- `if v.lowlink = v.index`, the stack down to `v` is put out as a component. -/
def close (t : Tarjan) (v : Nat) : Tarjan :=
  match t.vertices[v]? with
  | some x =>
    if x.index = some x.lowlink then
      let (vertices, members, rest) := popTo v t.components.size t.stack t.vertices
      { t with vertices := vertices, stack := rest, components := t.components.push members }
    else
      t
  | none => t

/-! ### Why it ends -/

/-- `v.index` is undefined. -/
def Undefined (t : Tarjan) (v : Nat) : Prop :=
  t.vertices[v]?.map Vertex.index = some none

instance (t : Tarjan) (v : Nat) : Decidable (t.Undefined v) :=
  inferInstanceAs (Decidable (_ = _))

/-- The nodes whose index is undefined. -/
def fresh (t : Tarjan) : Finset Nat :=
  {v ∈ Finset.range t.vertices.size | t.Undefined v}

theorem mem_fresh {t : Tarjan} {v : Nat} : v ∈ t.fresh ↔ t.Undefined v := by
  rw [fresh, Finset.mem_filter, Finset.mem_range, and_iff_right_iff_imp]
  intro h
  obtain ⟨x, hx, -⟩ := Option.map_eq_some_iff.1 h
  exact (Array.getElem?_eq_some_iff.1 hx).1

theorem map_getElem?_modify {α : Type} {g : Vertex → α} {f : Vertex → Vertex}
    (hf : ∀ x, g (f x) = g x) (vertices : Array Vertex) (v u : Nat) :
    (vertices.modify v f)[u]?.map g = vertices[u]?.map g := by
  rw [Array.getElem?_modify]
  split
  · cases vertices[u]? with
    | none => rfl
    | some x => exact congrArg some (hf x)
  · rfl

theorem fresh_enter_ssubset {t : Tarjan} {v : Nat} (hv : t.Undefined v) :
    (t.enter v).fresh ⊂ t.fresh := by
  have hdefined : ¬ (t.enter v).Undefined v := by
    obtain ⟨x, hx, -⟩ := Option.map_eq_some_iff.1 hv
    simp [Undefined, enter, Vertex.enter, Array.getElem?_modify, hx]
  refine (Finset.ssubset_iff_of_subset fun u hu => ?_).2
    ⟨v, mem_fresh.2 hv, fun hmem => hdefined (mem_fresh.1 hmem)⟩
  rw [mem_fresh] at hu ⊢
  have hne : v ≠ u := by
    rintro rfl
    exact hdefined hu
  rwa [Undefined, enter, Array.getElem?_modify, if_neg hne] at hu

theorem fresh_subset_of_index {t t' : Tarjan}
    (h : ∀ u : Nat, t'.vertices[u]?.map Vertex.index = t.vertices[u]?.map Vertex.index) :
    t'.fresh ⊆ t.fresh := by
  intro u hu
  rw [mem_fresh, Undefined] at *
  rwa [← h u]

theorem fresh_lower_subset (t : Tarjan) (v n : Nat) : (t.lower v n).fresh ⊆ t.fresh :=
  fresh_subset_of_index (map_getElem?_modify (Vertex.index_lower n) _ _)

/-- Popping changes nothing that leaving the stack does not change. -/
theorem map_getElem?_popTo {α : Type} {g : Vertex → α} {component : Nat}
    (hg : ∀ x, g (Vertex.leave component x) = g x) (v : Nat) (stack : List Nat)
    (vertices : Array Vertex) (u : Nat) :
    (popTo v component stack vertices).1[u]?.map g = vertices[u]?.map g := by
  induction stack generalizing vertices with
  | nil => rfl
  | cons w stack ih =>
    rw [popTo]
    dsimp only
    split
    · exact map_getElem?_modify hg _ _ _
    · exact (ih _).trans (map_getElem?_modify hg _ _ _)

theorem map_getElem?_close {α : Type} {g : Vertex → α}
    (hg : ∀ component x, g (Vertex.leave component x) = g x) (t : Tarjan) (v u : Nat) :
    (t.close v).vertices[u]?.map g = t.vertices[u]?.map g := by
  unfold close
  split
  · split
    · exact map_getElem?_popTo (hg _) _ _ _ _
    · rfl
  · rfl

theorem fresh_close_subset (t : Tarjan) (v : Nat) : (t.close v).fresh ⊆ t.fresh :=
  fresh_subset_of_index (map_getElem?_close Vertex.index_leave t v)

/-! ### The calls -/

mutual

/-- `strongconnect(v)`. -/
def connect (edges : Adjacency) (t : Tarjan) (v : Nat) (hv : t.Undefined v) :
    {t' : Tarjan // t'.fresh ⊆ t.fresh} :=
  have hlt := fresh_enter_ssubset hv
  let t' := follow edges (t.enter v) v (edges.next v)
  ⟨t'.val.close v, (fresh_close_subset ..).trans (t'.property.trans hlt.subset)⟩
termination_by (t.fresh.card, 0)
decreasing_by exact Prod.Lex.left _ _ (Finset.card_lt_card hlt)

/-- `for each edge (v, w)`: a node that has not been reached is called, and `v` is lowered to its
    lowlink; a node on the stack lowers `v` to its index. -/
def follow (edges : Adjacency) (t : Tarjan) (v : Nat) :
    List Nat → {t' : Tarjan // t'.fresh ⊆ t.fresh}
  | [] => ⟨t, Finset.Subset.refl _⟩
  | w :: ws =>
    match hw : t.vertices[w]? with
    | some ⟨none, _, _, _⟩ =>
      let t₁ := connect edges t w (by rw [Undefined, hw]; rfl)
      have hle := (fresh_lower_subset t₁.val v (t₁.val.lowlink w)).trans t₁.property
      let t₂ := follow edges (t₁.val.lower v (t₁.val.lowlink w)) v ws
      ⟨t₂.val, t₂.property.trans hle⟩
    | some ⟨some n, _, true, _⟩ =>
      have hle := fresh_lower_subset t v n
      let t₁ := follow edges (t.lower v n) v ws
      ⟨t₁.val, t₁.property.trans hle⟩
    | _ => follow edges t v ws
termination_by ws => (t.fresh.card, ws.length + 1)
decreasing_by
  · exact Prod.Lex.right _ (Nat.succ_pos _)
  · exact Search.lex_of_le (Finset.card_le_card hle) (Nat.lt_succ_self _)
  · exact Search.lex_of_le (Finset.card_le_card hle) (Nat.lt_succ_self _)
  · exact Prod.Lex.right _ (Nat.lt_succ_self _)

end

/-- A call for a node that has not been reached. -/
def visit (edges : Adjacency) (t : Tarjan) (v : Nat) : Tarjan :=
  if hv : t.Undefined v then (connect edges t v hv).val else t

end Tarjan

/-- The components of a whole graph: the nodes are called in order. -/
def tarjan (edges : Adjacency) : Tarjan :=
  (List.range edges.size).foldl (Tarjan.visit edges) (Tarjan.start edges.size)

/-! ## The same state -/

/-- What the search with frames knows of a node. -/
def Vertex.mark : Vertex → Mark
  | ⟨none, _, _, _⟩ => .unseen
  | ⟨some n, l, true, _⟩ => .active n l
  | ⟨some _, _, false, c⟩ => .placed c

namespace Tarjan

/-- The state as the search with frames keeps it. -/
def search (t : Tarjan) : Search :=
  ⟨t.vertices.map Vertex.mark, t.stack, t.components, t.counter⟩

theorem marks_search (t : Tarjan) (v : Nat) :
    t.search.marks[v]? = t.vertices[v]?.map Vertex.mark :=
  Array.getElem?_map

theorem undefined_iff {t : Tarjan} {v : Nat} :
    t.Undefined v ↔ t.search.marks[v]? = some .unseen := by
  rw [Undefined, marks_search]
  rcases t.vertices[v]? with _ | ⟨_ | n, l, _ | _, c⟩ <;> simp [Vertex.mark]

theorem exists_of_active {t : Tarjan} {v n l : Nat}
    (h : t.search.marks[v]? = some (.active n l)) :
    ∃ c, t.vertices[v]? = some ⟨some n, l, true, c⟩ := by
  rw [marks_search, Option.map_eq_some_iff] at h
  obtain ⟨⟨_ | n, l, _ | _, c⟩, hx, h⟩ := h <;> cases h
  exact ⟨c, hx⟩

theorem search_start (size : Nat) : (start size).search = Search.start size := by
  simp [search, start, Search.start, Vertex.mark]

/-! ### Changing one node -/

section Modify

variable {f : Vertex → Vertex} {vertices : Array Vertex} {v : Nat}

theorem marks_modify {m : Mark} (h : ∀ x, vertices[v]? = some x → (f x).mark = m) :
    (vertices.modify v f).map Vertex.mark = (vertices.map Vertex.mark).setIfInBounds v m := by
  apply Array.ext_getElem?
  intro u
  rw [Array.getElem?_map, Array.getElem?_modify, Array.getElem?_setIfInBounds, Array.size_map,
    Array.getElem?_map]
  by_cases hu : v = u
  · subst hu
    rw [if_pos rfl, if_pos rfl]
    split
    · rename_i hlt
      rw [Array.getElem?_eq_getElem hlt] at h ⊢
      exact congrArg some (h _ rfl)
    · rename_i hlt
      rw [Array.getElem?_eq_none (Nat.le_of_not_lt hlt)]
      rfl
  · rw [if_neg hu, if_neg hu]

theorem marks_modify_same (h : ∀ x, vertices[v]? = some x → (f x).mark = x.mark) :
    (vertices.modify v f).map Vertex.mark = vertices.map Vertex.mark := by
  apply Array.ext_getElem?
  intro u
  rw [Array.getElem?_map, Array.getElem?_modify, Array.getElem?_map]
  split
  · rename_i hu
    subst hu
    cases hv : vertices[v]? with
    | none => rfl
    | some x => exact congrArg some (h x hv)
  · rfl

end Modify

theorem search_enter (t : Tarjan) (v : Nat) : (t.enter v).search = t.search.discover v := by
  have hmarks : (t.enter v).vertices.map Vertex.mark =
      t.search.marks.setIfInBounds v (.active t.counter t.counter) :=
    marks_modify fun _ _ => rfl
  rw [search, hmarks]
  rfl

theorem search_lower (t : Tarjan) (v n : Nat) :
    (t.lower v n).search = t.search.lower v n := by
  unfold Search.lower
  split
  · rename_i number low hmark
    obtain ⟨c, hx⟩ := exists_of_active hmark
    have hmarks : (t.lower v n).vertices.map Vertex.mark =
        t.search.marks.setIfInBounds v (.active number (min low n)) := by
      refine marks_modify fun x hx' => ?_
      obtain rfl := Option.some.inj (hx.symm.trans hx')
      rfl
    rw [search, hmarks]
    rfl
  · -- a node that is not on the stack keeps its mark
    rename_i hmark
    have hmarks : (t.lower v n).vertices.map Vertex.mark = t.search.marks := by
      refine marks_modify_same ?_
      rintro ⟨_ | number, low, _ | _, c⟩ hx
      · rfl
      · rfl
      · rfl
      · exact absurd (by rw [marks_search, hx]; rfl) (hmark number low)
    rw [search, hmarks]
    rfl

/-! ### Popping a component -/

theorem popTo_snd {v : Nat} {stack : List Nat} (hv : v ∈ stack) (component : Nat)
    (vertices : Array Vertex) :
    (popTo v component stack vertices).2 =
      (stack.takeWhile (· != v) ++ [v], (stack.dropWhile (· != v)).drop 1) := by
  induction stack generalizing vertices with
  | nil => simp at hv
  | cons w stack ih =>
    rw [popTo]
    dsimp only
    split
    · rename_i hw
      simp [hw]
    · rename_i hw
      have hstack : v ∈ stack := by simpa [Ne.symm hw] using hv
      simp [ih hstack, hw]

/-- The nodes popped off the stack are placed in the component. -/
theorem marks_popTo {v : Nat} {stack : List Nat} (hv : v ∈ stack) (component : Nat)
    {vertices : Array Vertex}
    (hstack : ∀ w ∈ stack, ∀ x, vertices[w]? = some x → x.index ≠ none) :
    (popTo v component stack vertices).1.map Vertex.mark =
      (stack.takeWhile (· != v) ++ [v]).foldl (·.setIfInBounds · (.placed component))
        (vertices.map Vertex.mark) := by
  induction stack generalizing vertices with
  | nil => simp at hv
  | cons w stack ih =>
    have hplaced : (vertices.modify w (Vertex.leave component)).map Vertex.mark =
        (vertices.map Vertex.mark).setIfInBounds w (.placed component) := by
      refine marks_modify ?_
      rintro ⟨_ | n, l, onStack, c⟩ hx
      · exact absurd rfl (hstack w List.mem_cons_self _ hx)
      · rfl
    rw [popTo]
    dsimp only
    split
    · rename_i hw
      subst hw
      simpa using hplaced
    · rename_i hw
      have hrest : v ∈ stack := by simpa [Ne.symm hw] using hv
      have htake : (w :: stack).takeWhile (· != v) = w :: stack.takeWhile (· != v) := by
        simp [hw]
      rw [htake, List.cons_append, List.foldl_cons, ← hplaced]
      refine ih hrest fun u hu x hx => ?_
      have hindex := congrArg (Option.map Vertex.index) hx
      rw [map_getElem?_modify (Vertex.index_leave component), Option.map_some,
        Option.map_eq_some_iff] at hindex
      obtain ⟨y, hy, hyx⟩ := hindex
      rw [← hyx]
      exact hstack u (List.mem_cons_of_mem _ hu) y hy

end Tarjan

/-! ## The same steps -/

namespace Search

variable {edges : Adjacency} {s : Search}

theorem foldl_setIfInBounds_of_not_mem {members : List Nat} {v : Nat} (hv : v ∉ members)
    (m n : Mark) (marks : Array Mark) :
    members.foldl (·.setIfInBounds · m) (marks.setIfInBounds v n) =
      (members.foldl (·.setIfInBounds · m) marks).setIfInBounds v n := by
  induction members generalizing marks with
  | nil => rfl
  | cons w members ih =>
    obtain ⟨hw, hmembers⟩ := not_or.1 (mt List.mem_cons.2 hv)
    rw [List.foldl_cons, List.foldl_cons, Array.setIfInBounds_comm _ _ hw, ih hmembers]

/-- The frame below the first one may be lowered before or after the first one is finished: its node
    is not in the component of the first. -/
theorem Exploring.finish_lower {v : Nat} {f : Frame} {frames : List Frame}
    (h : Exploring edges s (⟨v, []⟩ :: f :: frames)) (n : Nat) :
    (s.lower f.node n).finish v = (s.finish v).lower f.node n := by
  have hva : s.Active v := h.frame_active v List.mem_cons_self
  have hfa : s.Active f.node := h.frame_active f.node (by simp)
  have hlt : s.number f.node < s.number v := h.number_lt_of_mem List.mem_cons_self
  have hne : v ≠ f.node := h.ne_of_mem List.mem_cons_self
  have hva' : (s.lower f.node n).Active v := (active_lower hfa n v).2 hva
  have hnumber : (s.lower f.node n).number v = s.number v := number_lower hfa n v
  have hlow : (s.lower f.node n).low v = s.low v := by rw [low_lower hfa, if_neg hne]
  rcases Nat.lt_or_eq_of_le (h.low_le v List.mem_cons_self) with hlt' | heq
  · rw [finish_of_low_lt hva hlt', finish_of_low_lt hva' (by rwa [hnumber, hlow])]
  · have hnot : f.node ∉ s.segment v := fun hmem =>
      Nat.not_le_of_lt hlt ((h.mem_segment hva f.node).1 hmem).2
    have hplaced : (s.place v).Active f.node := h.active_frame_place List.mem_cons_self
    rw [finish_of_root hva heq, finish_of_root hva' (by rw [hnumber, hlow, heq]),
      lower_eq hplaced, h.number_place hva hlt, h.low_place hva hlt, lower_eq hfa]
    simp only [Search.place, segment]
    rw [foldl_setIfInBounds_of_not_mem (by simpa only [segment] using hnot)]

end Search

namespace Tarjan

variable {edges : Adjacency}

/-- A node without further edges is finished. -/
theorem search_close {t : Tarjan} {v : Nat} {frames : List Frame}
    (h : Search.Exploring edges t.search (⟨v, []⟩ :: frames)) :
    (t.close v).search = t.search.finish v := by
  have hva : t.search.Active v := h.frame_active v List.mem_cons_self
  have hv : v ∈ t.stack := (h.mem_stack v).2 hva
  have hindex : ∀ w ∈ t.stack, ∀ x, t.vertices[w]? = some x → x.index ≠ none := by
    intro w hw x hx
    obtain ⟨c, hx'⟩ := exists_of_active ((h.mem_stack w).1 hw).mark
    obtain rfl := Option.some.inj (hx'.symm.trans hx)
    simp
  obtain ⟨c, hx⟩ := exists_of_active hva.mark
  simp only [close, hx, Search.finish, hva.mark, Option.some.injEq,
    eq_comm (a := t.search.number v)]
  split
  · have hpop := popTo_snd hv t.components.size t.vertices
    have hmarks := marks_popTo hv t.components.size hindex
    simp only [search, hmarks, hpop]
  · rfl

/-- A call that returns is a first frame that is left. -/
theorem search_return {t : Tarjan} {w : Nat} {f : Frame} {frames : List Frame}
    (h : Search.Exploring edges t.search (⟨w, []⟩ :: f :: frames)) :
    ((t.close w).lower f.node ((t.close w).lowlink w)).search =
      (t.search.inherit w (f :: frames)).finish w := by
  have hwa : t.search.Active w := h.frame_active w List.mem_cons_self
  have hlowlink : (t.close w).lowlink w = t.search.low w := by
    obtain ⟨c, hx⟩ := exists_of_active hwa.mark
    rw [lowlink, map_getElem?_close fun _ _ => rfl, hx]
    rfl
  rw [Search.inherit_cons hwa, h.finish_lower, search_lower, hlowlink, search_close h]

theorem connect_val (t : Tarjan) {v : Nat} (hv : t.Undefined v) :
    (connect edges t v hv).val = (follow edges (t.enter v) v (edges.next v)).val.close v := by
  rw [connect]

section Follow

variable {t : Tarjan} {v w : Nat} {ws : List Nat}

theorem follow_of_undefined (hw : t.Undefined w) :
    (follow edges t v (w :: ws)).val =
      (follow edges ((connect edges t w hw).val.lower v ((connect edges t w hw).val.lowlink w))
        v ws).val := by
  obtain ⟨⟨index, l, onStack, c⟩, hx, hindex⟩ := Option.map_eq_some_iff.1 hw
  cases hindex
  rw [follow]
  split
  · rfl
  · simp_all
  · simp_all

theorem follow_of_active {n l : Nat} (hw : t.search.marks[w]? = some (.active n l)) :
    (follow edges t v (w :: ws)).val = (follow edges (t.lower v n) v ws).val := by
  obtain ⟨c, hx⟩ := exists_of_active hw
  rw [follow]
  split
  · simp_all
  · rename_i m _ _ hx'
    obtain rfl : m = n := by simp_all
    rfl
  · simp_all

theorem follow_of_placed (hunseen : t.search.marks[w]? ≠ some .unseen)
    (hactive : ∀ n l, t.search.marks[w]? ≠ some (.active n l)) :
    (follow edges t v (w :: ws)).val = (follow edges t v ws).val := by
  rw [follow]
  split
  · rename_i hx
    exact absurd (by rw [marks_search, hx]; rfl) hunseen
  · rename_i n l c hx
    exact absurd (by rw [marks_search, hx]; rfl) (hactive n l)
  · rfl

end Follow

/-- Working through the edges of a node is working through its frame, whatever frames are below. -/
theorem search_follow (hb : edges.InBounds) (t : Tarjan) (v : Nat) (ws : List Nat)
    (frames : List Frame) (h : Search.Exploring edges t.search (⟨v, ws⟩ :: frames)) :
    Search.Exploring edges (follow edges t v ws).val.search (⟨v, []⟩ :: frames) ∧
      Search.explore edges t.search (⟨v, ws⟩ :: frames) =
        Search.explore edges (follow edges t v ws).val.search (⟨v, []⟩ :: frames) := by
  match ws with
  | [] =>
    rw [follow]
    exact ⟨h, rfl⟩
  | w :: ws =>
    by_cases hunseen : t.search.marks[w]? = some .unseen
    · -- the call works through the frame of `w`, which is then left
      have hw := undefined_iff.2 hunseen
      have henter := h.follow_unseen hunseen
      rw [← search_enter] at henter
      have hlt := fresh_enter_ssubset hw
      obtain ⟨hcalled, hcall⟩ := search_follow hb (t.enter w) w (edges.next w) _ henter
      have hleft := hcalled.finish
      rw [← search_return hcalled, ← connect_val t hw] at hleft
      have hle := (fresh_lower_subset _ v ((connect edges t w hw).val.lowlink w)).trans
        (connect edges t w hw).property
      rw [follow_of_undefined hw, Search.explore_of_unseen hunseen, ← search_enter, hcall,
        Search.explore, ← search_return hcalled, ← connect_val t hw]
      exact search_follow hb _ v ws frames hleft
    · by_cases hactive : ∃ n l, t.search.marks[w]? = some (.active n l)
      · obtain ⟨n, l, hw⟩ := hactive
        have hlower := h.follow_active hw
        rw [← search_lower] at hlower
        rw [follow_of_active hw, Search.explore_of_active hw, ← search_lower]
        exact search_follow hb (t.lower v n) v ws frames hlower
      · have hactive' : ∀ n l, t.search.marks[w]? ≠ some (.active n l) := fun n l hw =>
          hactive ⟨n, l, hw⟩
        rw [follow_of_placed hunseen hactive', Search.explore_of_placed hunseen hactive']
        exact search_follow hb t v ws frames (h.follow_placed hb hunseen hactive')
termination_by (t.fresh.card, ws.length)
decreasing_by
  · exact Prod.Lex.left _ _ (Finset.card_lt_card hlt)
  · exact Search.lex_of_le (Finset.card_le_card hle) (Nat.lt_succ_self _)
  · exact Search.lex_of_le (Finset.card_le_card (fresh_lower_subset t v n)) (Nat.lt_succ_self _)
  · exact Search.lex_of_le (Nat.le_refl _) (Nat.lt_succ_self _)

/-! ## Whole graphs -/

theorem search_visit (hb : edges.InBounds) {t : Tarjan} (h : Search.Exploring edges t.search [])
    (root : Nat) : (visit edges t root).search = Search.visit edges t.search root := by
  unfold visit Search.visit
  split
  · rename_i hroot
    have hunseen := undefined_iff.1 hroot
    have henter := h.enter hunseen (by simp)
    rw [← search_enter] at henter
    obtain ⟨hcalled, hcall⟩ := search_follow hb _ _ _ _ henter
    simp only [hunseen]
    rw [← search_enter, hcall, connect_val, search_close hcalled, Search.explore, Search.explore]
    rfl
  · rename_i hroot
    split
    · rename_i hunseen
      exact absurd (undefined_iff.2 hunseen) hroot
    · rfl

theorem search_foldl_visit (hb : edges.InBounds) {t : Tarjan}
    (h : Search.Exploring edges t.search []) (roots : List Nat) :
    (roots.foldl (visit edges) t).search = roots.foldl (Search.visit edges) t.search := by
  induction roots generalizing t with
  | nil => rfl
  | cons root roots ih =>
    have hvisit := search_visit hb h root
    rw [List.foldl_cons, List.foldl_cons, ← hvisit]
    refine ih ?_
    rw [hvisit]
    exact Search.exploring_visit hb h root

end Tarjan

section Results

variable {edges : Adjacency} (hb : edges.InBounds)
include hb

/-- The recursion ends in the state in which the search with frames ends. -/
theorem search_tarjan : (tarjan edges).search = searchAll edges := by
  have hstart := Search.exploring_start edges
  rw [← Tarjan.search_start] at hstart
  rw [tarjan, Tarjan.search_foldl_visit hb hstart, Tarjan.search_start]
  rfl

theorem components_tarjan : (tarjan edges).components = (searchAll edges).done := by
  rw [← search_tarjan hb]
  rfl

theorem owner_tarjan :
    (tarjan edges).vertices.map Vertex.component = (searchAll edges).owner := by
  have hmarks (v : Nat) : (searchAll edges).marks[v]? =
      (tarjan edges).vertices[v]?.map Vertex.mark := by
    rw [← search_tarjan hb, Tarjan.marks_search]
  apply Array.ext_getElem?
  intro v
  rw [Search.owner, Array.getElem?_map, Array.getElem?_map, hmarks]
  by_cases hv : v < edges.size
  · obtain ⟨c, hplaced⟩ := Search.exists_placed_searchAll hb hv
    rw [Search.Placed, hmarks, Option.map_eq_some_iff] at hplaced
    obtain ⟨⟨_ | n, l, _ | _, c⟩, hx, hmark⟩ := hplaced <;> cases hmark
    rw [hx]
    rfl
  · have hnone : (tarjan edges).vertices[v]? = none := by
      have hsize := (Search.exploring_searchAll hb).size_eq
      rw [← Option.map_eq_none_iff, ← hmarks, Array.getElem?_eq_none_iff]
      omega
    rw [hnone]
    rfl

end Results

namespace DependencyGraph

/-- Whatever the edits are that make a graph, the search with frames finds the components that the
    recursion finds: in the same order, with their nodes in the same order, and with the same
    component for each node. -/
theorem condensation_after_eq_tarjan (edits : List GraphEdit) :
    (after edits).condensation.components = (tarjan (after edits).readers).components ∧
      (after edits).condensation.owner =
        (tarjan (after edits).readers).vertices.map Vertex.component := by
  have hb := (wellFormed_after edits).edges_inBounds
  exact ⟨(components_tarjan hb).symm, (owner_tarjan hb).symm⟩

end DependencyGraph

end Spreadsheet
