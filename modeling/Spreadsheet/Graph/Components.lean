import Spreadsheet.Graph.Basic

/-!
# Strongly connected components

Tarjan's algorithm over the slots of a graph. Roots are tried in slot order and edges in the order
in which they were added. The nodes being explored are kept in a list of frames, so a long chain
needs no deep recursion.

* `Mark` is what the search knows about a node, `Search` all that it knows.
* `Search.explore` works through a list of frames, `searchAll` through all nodes; its `done` are the
  components, each from the last node discovered to the first.
* `Search.unseen` falls with each discovery, which is why the search ends.
-/

namespace Spreadsheet

/-- What the search knows about a node. -/
inductive Mark where
  /-- Not reached. -/
  | unseen
  /-- Reached and in no component yet: its number in order of discovery, and the least number known
      to be in its component. -/
  | active (number low : Nat)
  /-- Placed in the component with this number. -/
  | placed (component : Nat)
deriving DecidableEq, Repr

/-- The state of the search (the variables of `tarjan`). -/
structure Search where
  marks : Array Mark
  /-- The active nodes, the latest first. -/
  stack : List Nat
  /-- The components in order of completion. -/
  done : Array (List Nat)
  /-- The number of the next discovery. -/
  next : Nat

/-- A node being explored, with its edges that have not been followed (an entry of `frames` in
    `tarjan`). -/
structure Frame where
  node : Nat
  edges : List Nat

namespace Search

/-- The search before its first step. -/
def start (size : Nat) : Search :=
  ⟨Array.replicate size .unseen, [], #[], 0⟩

/-- The number of nodes not reached. -/
def unseen (s : Search) : Nat :=
  s.marks.countP (· == .unseen)

/-! ## Steps -/

/-- The node is reached: it gets the next number and goes on the stack. -/
def discover (s : Search) (v : Nat) : Search :=
  { s with
    marks := s.marks.setIfInBounds v (.active s.next s.next)
    stack := v :: s.stack
    next := s.next + 1 }

/-- The node is known to reach the node with number `n` in its component. -/
def lower (s : Search) (v n : Nat) : Search :=
  match s.marks[v]? with
  | some (.active number low) =>
    { s with marks := s.marks.setIfInBounds v (.active number (min low n)) }
  | _ => s

/-- The frame below takes over what is known of the node on top. -/
def inherit (s : Search) (v : Nat) : List Frame → Search
  | [] => s
  | parent :: _ =>
    match s.marks[v]? with
    | some (.active _ low) => s.lower parent.node low
    | _ => s

/-- The node has no more edges. If it reaches no node before it, it and everything above it on the
    stack are a component. -/
def finish (s : Search) (v : Nat) : Search :=
  match s.marks[v]? with
  | some (.active number low) =>
    if low = number then
      let members := s.stack.takeWhile (· != v) ++ [v]
      { s with
        marks := members.foldl (·.setIfInBounds · (.placed s.done.size)) s.marks
        stack := (s.stack.dropWhile (· != v)).drop 1
        done := s.done.push members }
    else
      s
  | _ => s

/-! ## Why it ends -/

theorem countP_setIfInBounds_le {marks : Array Mark} {v : Nat} {m : Mark} (hm : m ≠ .unseen) :
    (marks.setIfInBounds v m).countP (· == .unseen) ≤ marks.countP (· == .unseen) := by
  unfold Array.setIfInBounds
  split
  · rename_i h
    rw [Array.countP_set h]
    simp only [beq_iff_eq, hm, if_false, Nat.add_zero]
    exact Nat.sub_le ..
  · exact Nat.le_refl _

theorem unseen_discover_lt {s : Search} {v : Nat} (h : s.marks[v]? = some .unseen) :
    (s.discover v).unseen < s.unseen := by
  obtain ⟨hv, heq⟩ := Array.getElem?_eq_some_iff.1 h
  have hpos : 0 < s.marks.countP (· == .unseen) :=
    Array.countP_pos_iff.2 ⟨s.marks[v], Array.getElem_mem hv, by simp [heq]⟩
  simp only [unseen, discover, Array.setIfInBounds, hv, dif_pos]
  have hactive : (Mark.active s.next s.next == .unseen) = false := rfl
  rw [Array.countP_set hv, heq, hactive]
  simp only [beq_self_eq_true, if_true, Bool.false_eq_true, if_false]
  omega

theorem unseen_lower_le (s : Search) (v n : Nat) : (s.lower v n).unseen ≤ s.unseen := by
  unfold lower
  split
  · exact countP_setIfInBounds_le (by simp)
  · exact Nat.le_refl _

theorem unseen_inherit_le (s : Search) (v : Nat) (frames : List Frame) :
    (s.inherit v frames).unseen ≤ s.unseen := by
  unfold inherit
  split
  · exact Nat.le_refl _
  · split
    · exact unseen_lower_le ..
    · exact Nat.le_refl _

theorem countP_foldl_placed_le (component : Nat) (members : List Nat) (marks : Array Mark) :
    (members.foldl (·.setIfInBounds · (.placed component)) marks).countP (· == .unseen) ≤
      marks.countP (· == .unseen) := by
  induction members generalizing marks with
  | nil => exact Nat.le_refl _
  | cons v members ih =>
    exact Nat.le_trans (ih _) (countP_setIfInBounds_le (by simp))

theorem unseen_finish_le (s : Search) (v : Nat) : (s.finish v).unseen ≤ s.unseen := by
  unfold finish
  split
  · split
    · exact countP_foldl_placed_le ..
    · exact Nat.le_refl _
  · exact Nat.le_refl _

/-! ## The search -/

/-- The number of steps that the frames take if no node is discovered. -/
def work : List Frame → Nat
  | [] => 0
  | f :: frames => f.edges.length + 1 + work frames

theorem lex_of_le {a b c d : Nat} (h₁ : a ≤ c) (h₂ : b < d) :
    Prod.Lex (· < ·) (· < ·) (a, b) (c, d) := by
  rcases Nat.lt_or_eq_of_le h₁ with h | rfl
  · exact Prod.Lex.left _ _ h
  · exact Prod.Lex.right _ h₂

/-- Works through the frames, the first one first (the inner loop of `tarjan`). An edge to a node
    not reached puts that node in front; an edge to an active node says that both are in one
    component; a node without further edges is finished. -/
def explore (edges : Adjacency) (s : Search) : List Frame → Search
  | [] => s
  | ⟨v, []⟩ :: frames => explore edges ((s.inherit v frames).finish v) frames
  | ⟨v, w :: ws⟩ :: frames =>
    match h : s.marks[w]? with
    | some .unseen =>
      have := unseen_discover_lt h
      explore edges (s.discover w) (⟨w, edges.next w⟩ :: ⟨v, ws⟩ :: frames)
    | some (.active number _) => explore edges (s.lower v number) (⟨v, ws⟩ :: frames)
    | _ => explore edges s (⟨v, ws⟩ :: frames)
termination_by frames => (s.unseen, work frames)
decreasing_by
  · exact lex_of_le (Nat.le_trans (unseen_finish_le ..) (unseen_inherit_le ..)) (by simp [work])
  · exact Prod.Lex.left _ _ this
  · exact lex_of_le (unseen_lower_le ..) (by simp [work])
  · exact lex_of_le (Nat.le_refl _) (by simp [work])

/-- Explores everything that can be reached from a node, unless it has been reached before (the
    outer loop of `tarjan`). -/
def visit (edges : Adjacency) (s : Search) (root : Nat) : Search :=
  match s.marks[root]? with
  | some .unseen => explore edges (s.discover root) [⟨root, edges.next root⟩]
  | _ => s

end Search

/-- The search of a whole graph (`tarjan`). -/
def searchAll (edges : Adjacency) : Search :=
  (List.range edges.size).foldl (Search.visit edges) (Search.start edges.size)

/-- The component in which the search placed each node. -/
def Search.owner (s : Search) : Array Nat :=
  s.marks.map fun
    | .placed component => component
    | _ => 0

end Spreadsheet
