import Rendition.Proofs.Rendering.Observed

/-!
# Replacing a part of a tree

What stands at a position of a tree can be replaced by another tree, and everything beside it stays.
What is computed from a tree therefore depends on a part of it only through what is computed from
that part.

## Main definitions

* `Tree.replaceAt`: The tree with another one at a position.

## Theorems

* `Node.mapIdx_congr`: Children are told apart by their numbers.
* `descend_replaceAt`: The replacement stands at the position.
* `replaceAt_self`: Replacing a part by itself changes nothing.
* `fold_replaceAt`: Parts with one value can be replaced by each other in a computation.
-/

namespace Rendition

variable {α β γ : Type}

theorem mapIdxHandlers_then_map (g : β → γ) (f : Nat → α → β) (hs : List (Handler α)) :
    ∀ start, (mapIdxHandlers f start hs).map (Handler.map g) =
      mapIdxHandlers (fun i a => g (f i a)) start hs := by
  induction hs with
  | nil => intro start; rfl
  | cons h rest ih =>
    intro start
    simp only [mapIdxHandlers, List.map_cons, ih, Handler.mapIdx, Handler.map, Option.map_map,
      list_map_mapIdx, Function.comp_def]

namespace Node

theorem map_mapIdx (g : β → γ) (f : Nat → α → β) (node : Node α) :
    (node.mapIdx f).map g = node.mapIdx fun i a => g (f i a) := by
  cases node <;>
    simp [map, mapIdx, WithItem.map, Keyword.map, mapIdxHandlers_then_map, list_map_mapIdx,
      Option.map_map, Function.comp_def]

/-- Functions that agree on every child and its number make the same node. -/
theorem mapIdx_congr {f g : Nat → α → β} {node : Node α}
    (h : ∀ i a, node.toList[i]? = some a → f i a = g i a) : node.mapIdx f = node.mapIdx g := by
  have hpairs (k : Nat → α → β) : node.mapIdx k = (node.mapIdx Prod.mk).map (Function.uncurry k) :=
    (map_mapIdx (Function.uncurry k) Prod.mk node).symm
  rw [hpairs f, hpairs g]
  refine map_congr fun pair hpair => ?_
  rw [toList_mapIdx, List.mem_iff_getElem?] at hpair
  obtain ⟨i, hi⟩ := hpair
  rw [List.getElem?_mapIdx, Option.map_eq_some_iff] at hi
  obtain ⟨a, ha, rfl⟩ := hi
  exact h i a ha

end Node

namespace Tree

/-- The tree with `new` at a position. Where the position leads nowhere, nothing is replaced. -/
def replaceAt : Tree → Position → Tree → Tree
  | _, [], new => new
  | t, i :: path, new =>
    mk t.span (t.node.mapIdx fun j child => if j = i then child.replaceAt path new else child)

variable {span : Span} {node : Node Tree} {new : Tree}

theorem replaceAt_nil (t new : Tree) : t.replaceAt [] new = new := by
  rw [replaceAt]

theorem replaceAt_cons (span : Span) (node : Node Tree) (i : Nat) (path : Position) (new : Tree) :
    (mk span node).replaceAt (i :: path) new = mk span (node.mapIdx fun j child =>
      if j = i then child.replaceAt path new else child) := by
  rw [replaceAt]
  rfl

theorem getElem_children_replaceAt (i : Nat) (path : Position) :
    ((mk span node).replaceAt (i :: path) new).children[i]? =
      node.toList[i]?.map fun child => child.replaceAt path new := by
  rw [replaceAt_cons, children, node_mk, Node.toList_mapIdx, List.getElem?_mapIdx]
  simp only [if_true]

/-- A tree that was put at a position stands there. -/
theorem descend_replaceAt (path : Position) : ∀ {t d : Tree}, t.descend? path = some d →
    (t.replaceAt path new).descend? path = some new := by
  induction path with
  | nil => exact fun _ => congrArg some (replaceAt_nil _ _)
  | cons i path ih =>
    rintro ⟨span, node⟩ d h
    rw [descend_cons, Option.bind_eq_some_iff] at h
    obtain ⟨child, hchild, hd⟩ := h
    rw [descend_cons, getElem_children_replaceAt, show node.toList[i]? = some child from hchild]
    exact ih hd

/-- Putting a part back where it stands changes nothing. -/
theorem replaceAt_self (path : Position) : ∀ {t d : Tree}, t.descend? path = some d →
    t.replaceAt path d = t := by
  induction path with
  | nil =>
    intro t d h
    rw [replaceAt_nil]
    exact (Option.some.inj h).symm
  | cons i path ih =>
    rintro ⟨span, node⟩ d h
    rw [descend_cons, Option.bind_eq_some_iff] at h
    obtain ⟨child, hchild, hd⟩ := h
    have hnode : (node.mapIdx fun _ child => child) = node := by
      rw [Node.mapIdx_const (fun child => child), Node.map_id]
    rw [replaceAt_cons]
    refine congrArg (mk span) (Eq.trans (Node.mapIdx_congr fun j c hc => ?_) hnode)
    split
    · next heq =>
      rw [heq, show node.toList[i]? = some child from hchild] at hc
      rw [← Option.some.inj hc]
      exact ih hd
    · rfl

/-- What is computed from a tree depends on a part only through what is computed from the part. -/
theorem fold_replaceAt (f : Span → Node β → β) {old : Tree} (hnew : fold f new = fold f old)
    (path : Position) :
    ∀ t : Tree, fold f (t.replaceAt path new) = fold f (t.replaceAt path old) := by
  induction path with
  | nil => exact fun t => by rw [replaceAt_nil, replaceAt_nil, hnew]
  | cons i path ih =>
    rintro ⟨span, node⟩
    rw [replaceAt_cons, replaceAt_cons, fold_mk, fold_mk, Node.map_mapIdx, Node.map_mapIdx]
    refine congrArg (f span) (Node.mapIdx_congr fun j child _ => ?_)
    split
    · exact ih child
    · rfl

end Tree

end Rendition
