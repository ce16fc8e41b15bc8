import Rendition.Proofs.Tree.Fields
import Rendition.Tree.Traversal

/-!
# Traversals visit everything once

A traversal with its stack visits the same trees as the recursion over the tree. The invariant is
what the stack stands for: a step takes the first tree of it away and keeps the others, so a run
visits the first of what waited, and at the end of the run nothing waits any more.

All that is stored anywhere in a tree is visited. Two occurrences of equal trees are told apart by
the routes to them, and to each occurrence the traversal comes once.

## Main definitions

* `Traversal.Produces`: The trees that are visited on the way from one state to another.

## Theorems

* `Produces.waiting`: A run visits the first of what waits.
* `exists_produces`: Every traversal comes to its end.
* `toList_traversal`: A traversal of a tree visits the descendants.
* `traversal_preorder`: It visits a tree before its children, and every occurrence once.
-/

namespace Rendition

namespace Traversal

variable {s s' : Traversal} {ts : List Tree}

/-- The trees that are visited one after another on the way from one state to another. -/
inductive Produces : Traversal → List Tree → Traversal → Prop
  | refl (s : Traversal) : Produces s [] s
  | next {s s' s'' : Traversal} {t : Tree} {ts : List Tree} (h : s.next? = some (t, s'))
    (rest : Produces s' ts s'') : Produces s (t :: ts) s''

/-- What a run visits is the first of what waited, and the rest still waits. -/
theorem Produces.waiting (h : Produces s ts s') : s.waiting = ts ++ s'.waiting := by
  induction h with
  | refl s => rw [List.nil_append]
  | next hnext _ ih => rw [waiting_next? hnext, ih, List.cons_append]

/-- Every traversal comes to its end, on a way on which it visits all that was to be visited. -/
theorem exists_produces (s : Traversal) :
    ∃ last, Produces s s.toList last ∧ last.next? = none := by
  -- The recursion of `toList` follows the steps, and it ends because each leaves less to wait.
  fun_induction toList s with
  | case1 s hend => exact ⟨s, .refl s, hend⟩
  | case2 s t rest hnext ih =>
    obtain ⟨last, hrun, hlast⟩ := ih
    exact ⟨last, .next hnext hrun, hlast⟩

/-- The trees that are still to be visited are those that the stack stands for. -/
theorem toList_eq_waiting (s : Traversal) : s.toList = s.waiting := by
  obtain ⟨last, hrun, hlast⟩ := exists_produces s
  rw [hrun.waiting, waiting_eq_nil hlast, List.append_nil]

end Traversal

namespace Tree

/-- The traversal of a tree visits its descendants. -/
theorem toList_traversal (t : Tree) : t.traversal.toList = t.descendants := by
  rw [Traversal.toList_eq_waiting]
  exact List.append_nil t.descendants

/-- The traversal of a tree ends, and wherever it is left, what was visited until then is followed
    by what is still to be visited. What it visits in all is the tree itself and then, child by
    child, what the traversal of each child visits.

    These are all trees that are stored anywhere inside the tree, each as often as it is stored
    there. For the fields of a node hold all that is stored in it, and the routes through fields
    that lead somewhere, none of them twice, lead to what is visited, in that order. -/
theorem traversal_preorder (t : Tree) :
    (∃ last, t.traversal.Produces t.traversal.toList last ∧ last.next? = none) ∧
      (∀ visited s, t.traversal.Produces visited s → t.traversal.toList = visited ++ s.toList) ∧
      t.traversal.toList = t :: t.children.flatMap (fun child => child.traversal.toList) ∧
      (∀ (β : Type) (f g : Tree → β), t.node.map f = t.node.map g ↔
        ∀ field, ∀ child ∈ t.node.held field, f child = g child) ∧
      ∃ routes : List Route, routes.Nodup ∧
        (∀ route, route ∈ routes ↔ (t.reach? route).isSome) ∧
        routes.map t.reach? = t.traversal.toList.map some := by
  refine ⟨Traversal.exists_produces t.traversal, ?_, ?_, fun _ _ _ => Node.map_eq_map_iff,
    t.routes, nodup_routes t, fun route => mem_routes, ?_⟩
  · intro visited s hrun
    rw [Traversal.toList_eq_waiting, Traversal.toList_eq_waiting, hrun.waiting]
  · rcases t with ⟨span, node⟩
    simp only [toList_traversal]
    exact descendants_mk span node
  · rw [toList_traversal]
    exact map_reach_routes t

/-- In `x + x` the two sides are the same, and each of them is visited. -/
theorem traversal_preorder_twice :
    (mk ⟨1, 0⟩ (.binOp (mk ⟨1, 0⟩ (.ident "x")) .add (mk ⟨1, 0⟩ (.ident "x")))).traversal.toList =
      [mk ⟨1, 0⟩ (.binOp (mk ⟨1, 0⟩ (.ident "x")) .add (mk ⟨1, 0⟩ (.ident "x"))),
        mk ⟨1, 0⟩ (.ident "x")] ++ (Traversal.mk #[mk ⟨1, 0⟩ (.ident "x")]).toList ∧
      ∃ routes : List Route, routes.Nodup ∧ [(.left, 0)] ∈ routes ∧ [(.right, 0)] ∈ routes := by
  obtain ⟨-, hleft, -, -, routes, hnodup, hroutes, -⟩ := traversal_preorder
    (mk ⟨1, 0⟩ (.binOp (mk ⟨1, 0⟩ (.ident "x")) .add (mk ⟨1, 0⟩ (.ident "x"))))
  refine ⟨hleft _ _ (.next rfl (.next rfl (.refl _))), routes, hnodup, ?_, ?_⟩
  · exact (hroutes [(.left, 0)]).mpr rfl
  · exact (hroutes [(.right, 0)]).mpr rfl

end Tree

end Rendition
