import Rendition.Proofs.Tree.Position
import Rendition.Rendering.Rule

/-!
# Observed renditions

A rendition computes a fragment for every node it walks, but shows only what the fragment of the
root is. To speak about the others the same rule is run with an observer beside it: whenever the
fragment of a node is there, the observer is told the position of the node and the fragment, and
may note them in the state. The rule is not told of it, so what it does with the rest of the state
is what it does without an observer.

## Main definitions

* `Tree.visitAt`: The tree with the computation that renders it at each node, every computation
  extended by what stands around it at its position.
* `noting`: Run a computation and note its fragment.
* `silent`: The observer that notes nothing.
* `Tree.observe`: The rendition of a tree with an observer.

## Theorems

* `visitAt_mk`: One step of an observed rendition.
* `visitAt_bare`: With nothing around the computations it is the rendition itself.
* `observe_silent`: So it is with an observer that notes nothing.
-/

namespace Rendition

variable {m : Type → Type} {φ σ α β : Type}

theorem Node.mapIdx_const (f : α → β) (node : Node α) :
    (node.mapIdx fun _ a => f a) = node.map f := by
  have hlist : ∀ l : List α, (l.mapIdx fun _ a => f a) = l.map f := fun l => by
    refine List.ext_getElem? fun i => ?_
    simp only [List.getElem?_mapIdx, List.getElem?_map]
  have hhandlers : ∀ (hs : List (Handler α)) (start : Nat),
      mapIdxHandlers (fun _ a => f a) start hs = hs.map (Handler.map f) := by
    intro hs
    induction hs with
    | nil => intro start; rfl
    | cons h rest ih =>
      intro start
      simp only [mapIdxHandlers, Handler.mapIdx, Handler.map, List.map_cons, ih, hlist]
  cases node with
  | withStmt items body =>
    have hitems : (items.mapIdx fun _ item => (⟨f item.context, item.asName⟩ : WithItem β)) =
        items.map (WithItem.map f) := by
      refine List.ext_getElem? fun i => ?_
      simp only [List.getElem?_mapIdx, List.getElem?_map]
      rfl
    simp only [mapIdx, map, hlist, hitems]
  | call func args keywords =>
    have hkeywords : (keywords.mapIdx fun _ k => (⟨k.name, f k.value⟩ : Keyword β)) =
        keywords.map (Keyword.map f) := by
      refine List.ext_getElem? fun i => ?_
      simp only [List.getElem?_mapIdx, List.getElem?_map]
      rfl
    simp only [mapIdx, map, hlist, hkeywords]
  | dict entries =>
    simp only [mapIdx, map]
    congr 1
    refine List.ext_getElem? fun i => ?_
    simp only [List.getElem?_mapIdx, List.getElem?_map]
  | _ => simp only [mapIdx, map, hlist, hhandlers]

/-- Run a computation and note its fragment. -/
def noting (note : Position → φ → σ → σ) (path : Position) (x : Walk σ φ) : Walk σ φ := do
  let fragment ← x
  modify (note path fragment)
  return fragment

/-- The observer that notes nothing. -/
def silent (_ : Position) (_ : φ) (s : σ) : σ :=
  s

/-- An observer that notes nothing changes nothing. -/
theorem noting_silent (path : Position) (x : Walk σ φ) : noting silent path x = x := by
  funext s
  simp only [noting, bind, ExceptT.bind, ExceptT.mk, StateT.bind]
  rcases x s with ⟨_ | _, _⟩ <;> rfl

namespace Tree

section Visit

variable [Monad m] [MonadExceptOf Unimplemented m] (rule : Rule m φ)
  (around : Position → m φ → m φ)

/-- The tree with the computation that renders it at each node, every computation extended by what
    stands around it at its position. -/
def visitAt (t : Tree) : Position → Visit m φ :=
  t.fold fun span node path =>
    let children := node.mapIdx fun i child => child (path ++ [i])
    ⟨span, children, around path (rule.apply span children)⟩

theorem visitAt_mk (span : Span) (node : Node Tree) (path : Position) :
    visitAt rule around (mk span node) path =
      ⟨span, node.mapIdx fun i child => visitAt rule around child (path ++ [i]),
        around path (rule.apply span
          (node.mapIdx fun i child => visitAt rule around child (path ++ [i])))⟩ := by
  rw [visitAt, fold_mk]
  simp only [Node.mapIdx_map]
  rfl

theorem visitAt_span (t : Tree) (path : Position) : (visitAt rule around t path).span = t.span := by
  rcases t with ⟨span, node⟩
  rw [visitAt_mk]
  rfl

theorem visitAt_node (t : Tree) (path : Position) :
    (visitAt rule around t path).node =
      t.node.mapIdx fun i child => visitAt rule around child (path ++ [i]) := by
  rcases t with ⟨span, node⟩
  rw [visitAt_mk]
  rfl

theorem visitAt_run (span : Span) (node : Node Tree) (path : Position) :
    (visitAt rule around (mk span node) path).run = around path (rule.apply span
      (node.mapIdx fun i child => visitAt rule around child (path ++ [i]))) := by
  rw [visitAt_mk]
  rfl

theorem visitAt_bare (t : Tree) : visitAt rule (fun _ x => x) t = fun _ => visit rule t := by
  induction t using inductionOn with
  | step span node ih =>
    funext path
    have hchildren : (node.map fun child => visitAt rule (fun _ x => x) child) =
        node.map fun child _ => visit rule child := Node.map_congr ih
    have hnode : (node.mapIdx fun i child => visitAt rule (fun _ x => x) child (path ++ [i])) =
        node.map (visit rule) := by
      have hnumbered := congrArg
        (Node.mapIdx fun i (child : Position → Visit m φ) => child (path ++ [i])) hchildren
      simpa only [Node.mapIdx_map, Node.mapIdx_const] using hnumbered
    rw [visitAt_mk, visit_mk, hnode]

end Visit

/-- The rendition of a tree with an observer. -/
def observe (rule : Rule (Walk σ) φ) (note : Position → φ → σ → σ) (t : Tree) : Walk σ φ :=
  (t.visitAt rule (noting note) []).run

theorem observe_silent (rule : Rule (Walk σ) φ) (t : Tree) :
    t.observe rule silent = t.render rule := by
  have hbare : (noting silent : Position → Walk σ φ → Walk σ φ) = fun _ x => x :=
    funext fun path => funext fun x => noting_silent path x
  rw [observe, hbare, visitAt_bare, render]

end Tree

end Rendition
