import Rendition.Proofs.Tree.Position
import Rendition.Tree.Equality

/-!
# Trees at other places

Replacing the places in a tree leaves everything else as it is, and what is computed from a tree
without looking at places stays the same. Two trees that differ in places only are equal once their
places are erased.

## Theorems

* `mapSpans_mk`: One step of the replacement.
* `fold_mapSpans`, `fold_erase`: What is computed from a tree with other places.
* `kind_mapSpans`: A tree at other places is of the same kind.
-/

namespace Rendition

namespace Node

variable {α β : Type}

theorem map_mapSpans (f : α → β) (g : Span → Span) (node : Node α) :
    (node.mapSpans g).map f = (node.map f).mapSpans g := by
  cases node <;> simp [map, mapSpans, Handler.map]

theorem toList_mapSpans (g : Span → Span) (node : Node α) :
    (node.mapSpans g).toList = node.toList := by
  cases node with
  | tryStmt body handlers finalbody =>
    simp only [toList, mapSpans, List.flatMap_map]
    rfl
  | _ => rfl

@[simp] theorem kind_mapSpans (g : Span → Span) (node : Node α) :
    (node.mapSpans g).kind = node.kind := by
  cases node <;> rfl

end Node

namespace Tree

variable {β : Type}

theorem mapSpans_mk (g : Span → Span) (span : Span) (node : Node Tree) :
    mapSpans g (mk span node) = mk (g span) ((node.map (mapSpans g)).mapSpans g) := by
  rw [mapSpans, fold_mk]
  rfl

/-- What is computed from a tree with other places. -/
theorem fold_mapSpans (f : Span → Node β → β) (g : Span → Span) (t : Tree) :
    fold f (mapSpans g t) = fold (fun span node => f (g span) (node.mapSpans g)) t := by
  induction t using inductionOn with
  | step span node ih =>
    rw [mapSpans_mk, fold_mk, fold_mk, Node.map_mapSpans, Node.map_map]
    exact congrArg (fun node => f (g span) (node.mapSpans g)) (Node.map_congr ih)

/-- What is computed without looking at places does not change when they are erased. -/
theorem fold_erase (f : Node β → β) (h : ∀ g node, f (node.mapSpans g) = f node) (t : Tree) :
    fold (fun _ => f) t.erase = fold (fun _ => f) t := by
  rw [erase, fold_mapSpans]
  simp only [h]

theorem node_mapSpans (g : Span → Span) (t : Tree) :
    (mapSpans g t).node = (t.node.map (mapSpans g)).mapSpans g := by
  rcases t with ⟨span, node⟩
  rw [mapSpans_mk]
  rfl

theorem kind_mapSpans (g : Span → Span) (t : Tree) : (mapSpans g t).kind = t.kind := by
  rw [kind, node_mapSpans, Node.kind_mapSpans, Node.kind_map]
  rfl

end Tree

end Rendition
