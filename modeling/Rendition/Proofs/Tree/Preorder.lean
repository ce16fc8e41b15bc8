import Mathlib.Data.List.Nodup
import Rendition.Proofs.Tree.Position

/-!
# The positions of a tree in order

A walk through a tree that comes to a node before it comes to its children, and to the children
from left to right, meets the positions of the tree in one order. What stands at these positions is
the list of the descendants, and unlike the descendants, which may be equal as trees, no two of the
positions are the same.

## Main definitions

* `Tree.positions`: The positions of a tree, each before those below it.

## Theorems

* `map_descend_positions`: The descendants stand at the positions.
* `nodup_positions`: No position occurs twice.
-/

namespace Rendition.Tree

/-- The positions of a tree, each before those below it. -/
def positions (t : Tree) : List Position :=
  t.fold fun _ node => [] :: (node.toList.mapIdx fun i below => below.map (i :: ·)).flatten

theorem positions_mk (span : Span) (node : Node Tree) :
    (mk span node).positions =
      [] :: (node.toList.mapIdx fun i child => child.positions.map (i :: ·)).flatten := by
  rw [positions, fold_mk, Node.toList_map, list_mapIdx_map]
  rfl

/-- The descendants stand at the positions, in the same order. -/
theorem map_descend_positions (t : Tree) :
    t.positions.map t.descend? = t.descendants.map some := by
  induction t using inductionOn with
  | step span node ih =>
    have hbelow : (node.toList.mapIdx fun i child =>
        (child.positions.map (i :: ·)).map (mk span node).descend?) =
        node.toList.map fun child => child.descendants.map some := by
      refine List.ext_getElem? fun i => ?_
      rw [List.getElem?_mapIdx, List.getElem?_map]
      rcases hchild : node.toList[i]? with _ | child
      · rfl
      · have hdescend : ∀ path, (mk span node).descend? (i :: path) = child.descend? path :=
          fun path => by rw [descend_cons, children, node_mk, hchild, Option.bind_some]
        simp only [Option.map_some, List.map_map, Function.comp_def, hdescend]
        rw [← ih child (List.mem_of_getElem? hchild)]
    rw [positions_mk, descendants_mk, List.map_cons, List.map_cons, descend?, List.map_flatten,
      list_map_mapIdx, hbelow, List.map_flatMap, List.flatMap_def]

/-- No position occurs twice. -/
theorem nodup_positions (t : Tree) : t.positions.Nodup := by
  induction t using inductionOn with
  | step span node ih =>
    rw [positions_mk, List.nodup_cons, List.nodup_flatten, List.pairwise_iff_getElem]
    refine ⟨fun hroot => ?_, fun below hbelow => ?_, fun i j hi hj hij path hpath hpath' => ?_⟩
    · obtain ⟨below, hbelow, hroot⟩ := List.mem_flatten.mp hroot
      obtain ⟨i, hi, rfl⟩ := List.mem_mapIdx.mp hbelow
      obtain ⟨path, -, hpath⟩ := List.mem_map.mp hroot
      exact absurd hpath (List.cons_ne_nil i path)
    · obtain ⟨i, hi, rfl⟩ := List.mem_mapIdx.mp hbelow
      exact (ih _ (List.getElem_mem hi)).map fun _ _ h => (List.cons.inj h).2
    · -- The positions below two children differ in their first number.
      rw [List.getElem_mapIdx] at hpath hpath'
      obtain ⟨p, -, rfl⟩ := List.mem_map.mp hpath
      obtain ⟨q, -, hq⟩ := List.mem_map.mp hpath'
      exact Nat.ne_of_gt hij (List.cons.inj hq).1

end Rendition.Tree
