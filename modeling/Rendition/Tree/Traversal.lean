import Rendition.Tree.Basic

/-!
# Visiting a tree node by node

A traversal visits the trees inside a tree one at a time, and whoever asks for the next one may stop
at any of them. The trees that wait for their turn are on a stack, the next one on top. A tree that
is visited leaves the stack to its children, which are put there from the last to the first, so
that the first one comes next and everything inside it comes before the second one.

A traversal ends because the stack stands for a list of trees, the descendants of those on it from
the top down, and each step takes the first tree of that list away.

## Main definitions

* `Traversal`: A traversal under way.
* `Traversal.next?`: The next tree, and the traversal after it.
* `Traversal.waiting`: What the stack stands for.
* `Traversal.toList`: The trees that are still to be visited.
* `Tree.traversal`: The traversal of a tree.

## Theorems

* `next?_eq_some_iff`, `next?_eq_none_iff`: What one step does.
* `waiting_next?`: A step visits the first tree that waits.
-/

namespace Rendition

/-- A traversal under way. -/
structure Traversal where
  /-- The trees that wait for their turn, the next one last. -/
  pending : Array Tree

namespace Traversal

variable {s s' : Traversal} {t : Tree}

/-- The next tree, and the traversal after it. -/
def next? (s : Traversal) : Option (Tree × Traversal) :=
  s.pending.back?.map fun t => (t, ⟨s.pending.pop ++ t.children.reverse.toArray⟩)

/-- A step takes one tree off the stack and puts its children there. -/
theorem next?_eq_some_iff : s.next? = some (t, s') ↔
    ∃ below : Array Tree, s.pending = below.push t ∧
      s' = ⟨below ++ t.children.reverse.toArray⟩ := by
  rcases s with ⟨pending⟩
  constructor
  · intro h
    simp only [next?, Option.map_eq_some_iff, Prod.mk.injEq] at h
    obtain ⟨top, htop, rfl, rfl⟩ := h
    obtain ⟨below, rfl⟩ := Array.back?_eq_some_iff.mp htop
    exact ⟨below, rfl, by rw [Array.pop_push]⟩
  · rintro ⟨below, rfl, rfl⟩
    simp only [next?, Array.back?_push, Option.map_some, Array.pop_push]

/-- There is no step when nothing waits. -/
theorem next?_eq_none_iff : s.next? = none ↔ s.pending = #[] := by
  simp only [next?, Option.map_eq_none_iff, Array.back?_eq_none_iff]

/-- What the stack stands for: the descendants of the trees on it, from the top down. -/
def waiting (s : Traversal) : List Tree :=
  s.pending.toList.reverse.flatMap Tree.descendants

/-- A step visits the first tree that waits, and the others go on waiting. -/
theorem waiting_next? (h : s.next? = some (t, s')) : s.waiting = t :: s'.waiting := by
  obtain ⟨below, hpending, rfl⟩ := next?_eq_some_iff.mp h
  rcases t with ⟨span, node⟩
  -- Pushed from the last to the first, the children lie on the stack from the first down.
  have hstack : (below ++ node.toList.reverse.toArray).toList.reverse =
      node.toList ++ below.toList.reverse := by
    rw [Array.toList_append, List.reverse_append, List.reverse_reverse]
  rw [waiting, waiting, hpending, Array.toList_push, List.reverse_append, List.reverse_singleton,
    List.singleton_append, List.flatMap_cons, Tree.descendants_mk, Tree.children, Tree.node_mk,
    hstack, List.flatMap_append, List.cons_append]

/-- Nothing waits at the end. -/
theorem waiting_eq_nil (h : s.next? = none) : s.waiting = [] := by
  rw [waiting, next?_eq_none_iff.mp h]
  rfl

/-- The trees that are still to be visited, in order. -/
def toList (s : Traversal) : List Tree :=
  match _h : s.next? with
  | none => []
  | some (t, rest) => t :: rest.toList
termination_by s.waiting.length
decreasing_by
  rw [waiting_next? _h]
  exact Nat.lt_succ_self rest.waiting.length

end Traversal

/-- The traversal of a tree, before anything is visited. -/
def Tree.traversal (t : Tree) : Traversal :=
  ⟨#[t]⟩

end Rendition
