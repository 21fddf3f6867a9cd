import Mathlib.Logic.Relation
import Spreadsheet.Proofs.Graph.Components

/-!
# The search as a loop

The search of a whole graph, one iteration at a time: an iteration tries the next root, follows the
next edge of the first frame or leaves the first frame. The recursion of `Search.explore` and the
fold over the roots are runs of this loop. A component is numbered by how many were complete before
it, and no later iteration touches it.

Results:
* `Loop.reached_searchAll`: the loop ends, and it ends with `searchAll`.
* `Loop.done_of_step`: an iteration completes at most one component.
* `Loop.done_prefix_searchAll`: what is complete at any moment are the first components of the end.
* `Loop.popped_of_step`, `Loop.exists_popped`: the component that an iteration completes is popped
  off the stack, and every component is completed by some iteration.
-/

namespace Spreadsheet

/-- A moment of the loop: what the search knows, the frames it works through and the roots that it
    has not tried. -/
structure Loop where
  search : Search
  frames : List Frame
  roots : List Nat

namespace Loop

/-- The loop before its first iteration. -/
def start (edges : Adjacency) : Loop :=
  ⟨Search.start edges.size, [], List.range edges.size⟩

/-- The next root is tried. -/
def tryRoot (edges : Adjacency) (s : Search) (root : Nat) (roots : List Nat) : Loop :=
  match s.marks[root]? with
  | some .unseen => ⟨s.discover root, [⟨root, edges.next root⟩], roots⟩
  | _ => ⟨s, [], roots⟩

/-- The edge to `w` of the first frame is followed. -/
def follow (edges : Adjacency) (s : Search) (w : Nat) (f : Frame) (frames : List Frame)
    (roots : List Nat) : Loop :=
  match s.marks[w]? with
  | some .unseen => ⟨s.discover w, ⟨w, edges.next w⟩ :: f :: frames, roots⟩
  | some (.active number _) => ⟨s.lower f.node number, f :: frames, roots⟩
  | _ => ⟨s, f :: frames, roots⟩

/-- One iteration. Without frames and roots there is none. -/
def next? (edges : Adjacency) : Loop → Option Loop
  | ⟨_, [], []⟩ => none
  | ⟨s, [], root :: roots⟩ => some (tryRoot edges s root roots)
  | ⟨s, ⟨v, []⟩ :: frames, roots⟩ => some ⟨(s.inherit v frames).finish v, frames, roots⟩
  | ⟨s, ⟨v, w :: ws⟩ :: frames, roots⟩ => some (follow edges s w ⟨v, ws⟩ frames roots)

/-- An iteration leads from one moment to the other. -/
def Step (edges : Adjacency) (l l' : Loop) : Prop := l.next? edges = some l'

/-- A run of the loop leads from one moment to the other. -/
def Runs (edges : Adjacency) : Loop → Loop → Prop := Relation.ReflTransGen (Step edges)

/-- The loop comes to this moment. -/
def Reached (edges : Adjacency) (l : Loop) : Prop := Runs edges (start edges) l

variable {edges : Adjacency}

/-! ## The loop ends -/

/-- Working through the frames is a run that leaves the roots alone. -/
theorem runs_explore (s : Search) (frames : List Frame) (roots : List Nat) :
    Runs edges ⟨s, frames, roots⟩ ⟨Search.explore edges s frames, [], roots⟩ := by
  fun_induction Search.explore edges s frames with
  | case1 s => exact .refl
  | case2 s v frames ih => exact .head rfl ih
  | case3 s v w ws frames hw _ ih =>
    have hstep : follow edges s w ⟨v, ws⟩ frames roots =
        ⟨s.discover w, ⟨w, edges.next w⟩ :: ⟨v, ws⟩ :: frames, roots⟩ := by simp [follow, hw]
    exact .head (congrArg some hstep) ih
  | case4 s v w ws frames n l hw ih =>
    have hstep : follow edges s w ⟨v, ws⟩ frames roots =
        ⟨s.lower v n, ⟨v, ws⟩ :: frames, roots⟩ := by simp [follow, hw]
    exact .head (congrArg some hstep) ih
  | case5 s v w ws frames hunseen hactive ih =>
    have hstep : follow edges s w ⟨v, ws⟩ frames roots = ⟨s, ⟨v, ws⟩ :: frames, roots⟩ := by
      unfold follow
      split
      · exact absurd ‹_› hunseen
      · exact absurd ‹_› (hactive _ _)
      · rfl
    exact .head (congrArg some hstep) ih

theorem runs_visit (s : Search) (root : Nat) (roots : List Nat) :
    Runs edges ⟨s, [], root :: roots⟩ ⟨Search.visit edges s root, [], roots⟩ := by
  unfold Search.visit
  split
  · rename_i hroot
    have hstep : tryRoot edges s root roots =
        ⟨s.discover root, [⟨root, edges.next root⟩], roots⟩ := by simp [tryRoot, hroot]
    exact .head (congrArg some hstep) (runs_explore ..)
  · rename_i hroot
    have hstep : tryRoot edges s root roots = ⟨s, [], roots⟩ := by
      unfold tryRoot
      split
      · exact absurd ‹_› hroot
      · rfl
    exact .single (congrArg some hstep)

theorem runs_foldl_visit (s : Search) (roots : List Nat) :
    Runs edges ⟨s, [], roots⟩ ⟨roots.foldl (Search.visit edges) s, [], []⟩ := by
  induction roots generalizing s with
  | nil => exact .refl
  | cons root roots ih => exact (runs_visit s root roots).trans (ih _)

/-- The loop ends with what `searchAll` computes. -/
theorem reached_searchAll (edges : Adjacency) : Reached edges ⟨searchAll edges, [], []⟩ :=
  runs_foldl_visit _ _

/-- A moment of the loop is on the way to its end: there is only one way. -/
theorem Reached.runs_searchAll {l : Loop} (h : Reached edges l) :
    Runs edges l ⟨searchAll edges, [], []⟩ := by
  have hunique : Relator.RightUnique (Step edges) := fun _ _ _ h₁ h₂ =>
    Option.some.inj (h₁.symm.trans h₂)
  rcases Relation.ReflTransGen.total_of_right_unique hunique h (reached_searchAll edges) with
    hrun | hrun
  · exact hrun
  · -- the end has no next moment, so nothing is reached from it but itself
    rcases Relation.ReflTransGen.cases_head hrun with heq | ⟨l', hstep, -⟩
    · rw [heq]
      exact .refl
    · simp [Step, next?] at hstep

/-! ## Order of completion -/

theorem done_inherit (s : Search) (v : Nat) (frames : List Frame) :
    (s.inherit v frames).done = s.done := by
  unfold Search.inherit
  split
  · rfl
  · split
    · exact Search.done_lower ..
    · rfl

theorem done_finish (s : Search) (v : Nat) :
    (s.finish v).done = s.done ∨ ∃ members, (s.finish v).done = s.done.push members := by
  unfold Search.finish
  split
  · split
    · exact Or.inr ⟨_, rfl⟩
    · exact Or.inl rfl
  · exact Or.inl rfl

/-- An iteration completes at most one component, which gets the next number. -/
theorem done_of_step {l l' : Loop} (h : Step edges l l') :
    l'.search.done = l.search.done ∨ ∃ members, l'.search.done = l.search.done.push members := by
  unfold Step next? at h
  split at h
  · simp at h
  · cases h
    refine Or.inl ?_
    unfold tryRoot
    split <;> rfl
  · cases h
    rename_i s v frames roots
    rw [← done_inherit s v frames]
    exact done_finish ..
  · cases h
    refine Or.inl ?_
    unfold follow
    split
    · rfl
    · exact Search.done_lower ..
    · rfl

/-- Complete components stay as they are, under their numbers. -/
theorem Runs.done_prefix {l l' : Loop} (h : Runs edges l l') :
    l.search.done.toList <+: l'.search.done.toList := by
  induction h with
  | refl => exact List.prefix_rfl
  | tail _ hstep ih =>
    refine ih.trans ?_
    rcases done_of_step hstep with heq | ⟨members, heq⟩
    · exact heq ▸ List.prefix_rfl
    · rw [heq, Array.toList_push]
      exact List.prefix_append ..

/-- What is complete at any moment are the first components of the end. -/
theorem Reached.done_prefix_searchAll {l : Loop} (h : Reached edges l) :
    l.search.done.toList <+: (searchAll edges).done.toList :=
  h.runs_searchAll.done_prefix

/-! ## What is popped off the stack -/

section Popped

variable (hb : edges.InBounds)
include hb

/-- An iteration keeps the invariant of the search. -/
theorem exploring_of_step {l l' : Loop} (h : Search.Exploring edges l.search l.frames)
    (hstep : Step edges l l') : Search.Exploring edges l'.search l'.frames := by
  unfold Step next? at hstep
  split at hstep
  · simp at hstep
  · cases hstep
    unfold tryRoot
    split
    · rename_i hroot
      exact h.enter hroot (by simp)
    · exact h
  · cases hstep
    exact h.finish
  · cases hstep
    unfold follow
    split
    · rename_i hw
      exact h.follow_unseen hw
    · rename_i hw
      exact h.follow_active hw
    · rename_i hunseen hactive
      exact h.follow_placed hb hunseen hactive

theorem Reached.exploring {l : Loop} (h : Reached edges l) :
    Search.Exploring edges l.search l.frames := by
  induction h with
  | refl => exact Search.exploring_start edges
  | tail _ hstep ih => exact exploring_of_step hb ih hstep

omit hb in
theorem stack_inherit (s : Search) (v : Nat) (frames : List Frame) :
    (s.inherit v frames).stack = s.stack := by
  unfold Search.inherit
  split
  · rfl
  · split
    · exact Search.stack_lower ..
    · rfl

omit hb in
/-- What becomes a component is popped off the stack, the top first. -/
theorem popped_finish {s : Search} {v : Nat} (hv : v ∈ s.stack) {members : List Nat}
    (h : (s.finish v).done = s.done.push members) :
    s.stack = members ++ (s.finish v).stack := by
  have hsame : s.done ≠ s.done.push members := fun heq => by
    simpa using congrArg Array.size heq
  obtain ⟨pre, post, hstack, hnot⟩ := List.eq_append_cons_of_mem hv
  unfold Search.finish at h ⊢
  split at h
  · split at h
    · rename_i hroot
      obtain rfl := (Array.push_eq_push.1 h).1
      rw [if_pos hroot]
      simp only [hstack, Search.takeWhile_ne_append hnot, Search.dropWhile_ne_append hnot]
      simp
    · exact absurd h hsame
  · exact absurd h hsame

omit hb in
/-- The component that an iteration completes is popped off the stack. -/
theorem popped_of_step {l l' : Loop} (h : Search.Exploring edges l.search l.frames)
    (hstep : Step edges l l') {members : List Nat}
    (hdone : l'.search.done = l.search.done.push members) :
    l.search.stack = members ++ l'.search.stack := by
  have hsame (s : Search) (heq : s.done = l.search.done) : s.done ≠ l.search.done.push members := by
    intro hpush
    simpa using congrArg Array.size (heq.symm.trans hpush)
  unfold Step next? at hstep
  split at hstep
  · simp at hstep
  · cases hstep
    refine absurd hdone (hsame _ ?_)
    unfold tryRoot
    split <;> rfl
  · cases hstep
    rename_i s v frames roots
    have hv : v ∈ s.stack := (h.mem_stack v).2 (h.frame_active v List.mem_cons_self)
    rw [← stack_inherit s v frames] at hv
    rw [← stack_inherit s v frames]
    refine popped_finish hv ?_
    rwa [done_inherit]
  · cases hstep
    refine absurd hdone (hsame _ ?_)
    unfold follow
    split
    · rfl
    · exact Search.done_lower ..
    · rfl

/-- Every complete component was popped off the stack by some iteration. -/
theorem exists_popped {l : Loop} (h : Reached edges l) {id : Nat} {members : List Nat}
    (hid : l.search.done[id]? = some members) :
    ∃ m m', Reached edges m ∧ Step edges m m' ∧ m.search.done.size = id ∧
      m'.search.done = m.search.done.push members ∧
      m.search.stack = members ++ m'.search.stack := by
  induction h with
  | refl => simp [start, Search.start] at hid
  | @tail m m' hm hstep ih =>
    rcases done_of_step hstep with heq | ⟨popped, heq⟩
    · exact ih (heq ▸ hid)
    · rw [heq, Array.getElem?_push] at hid
      split at hid
      · rename_i hlast
        obtain rfl := Option.some.inj hid
        exact ⟨m, m', hm, hstep, hlast.symm, heq,
          popped_of_step (Reached.exploring hb hm) hstep heq⟩
      · exact ih hid

end Popped

end Loop

end Spreadsheet
