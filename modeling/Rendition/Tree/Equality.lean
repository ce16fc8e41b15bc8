import Rendition.Tree.Basic

/-!
# Equality of trees

Two comparisons of trees. `Tree.same` compares everything, places included. `Tree.alike` leaves
the places out, so that a tree read from a text and the same tree from elsewhere are alike. Floats
are compared as numbers by both, so a tree that holds a value that is not a number is not even
equal to itself.

## Main definitions

* `Tree.same`: Equality of trees.
* `Tree.alike`: Equality up to places.
* `Tree.erase`: The tree with every place replaced by the same one.
-/

namespace Rendition.Tree

/-- Equality of trees, places included. -/
def same (a : Tree) : Tree → Bool :=
  a.fold fun span node b =>
    span == b.span && node.agree (fun s s' => s == s') (fun f c => f c) b.node

/-- Equality of trees up to the places of nodes and clauses. -/
def alike (a : Tree) : Tree → Bool :=
  a.fold fun _ node b => node.agree (fun _ _ => true) (fun f c => f c) b.node

/-- The tree with every place replaced through `f`. -/
def mapSpans (f : Span → Span) (t : Tree) : Tree :=
  t.fold fun span node => mk (f span) (node.mapSpans f)

/-- The tree with every place replaced by the same one. -/
def erase (t : Tree) : Tree :=
  t.mapSpans fun _ => ⟨0, 0⟩

end Rendition.Tree
