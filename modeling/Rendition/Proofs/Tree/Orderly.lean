import Rendition.Proofs.Text.Lines
import Rendition.Proofs.Tree.Grammatical
import Rendition.Proofs.Tree.Suites

/-!
# Orderly trees

A tree may hold names that are empty or go over several lines, and anything may stand in any place.
A tree is orderly if its names are names on one line, statements stand where statements belong, and
expressions where expressions belong. A whole source text is neither, so it can only be the root.

## Main definitions

* `Node.names`: The names in a node.
* `Node.Orderly`, `Tree.Orderly`: Nodes and trees with names and children of the right kind.

## Theorems

* `Tree.Orderly.numbered`: A child of an orderly tree is an expression, or a statement that stands
  where statements belong.
* `Tree.Orderly.descend`: Inside an expression stand expressions.
* `Tree.Orderly.mem_statements`: A child with a statement inside stands where statements belong.
-/

namespace Rendition

namespace Node

/-- The names in a node. -/
def names {α : Type} : Node α → List String
  | functionDef name params _ => name :: params
  | tryStmt _ handlers _ => handlers.flatMap fun handler => handler.name.toList
  | withStmt items _ => items.flatMap fun item => item.asName.toList
  | classDef name _ _ => [name]
  | importStmt source names =>
    source.toList ++ names.flatMap fun name => name.name :: name.asName.toList
  | ident id => [id]
  | call _ _ keywords => keywords.map Keyword.name
  | attr _ name => [name]
  | lambda params _ => params
  | _ => []

theorem names_map {α β : Type} (f : α → β) (node : Node α) : (node.map f).names = node.names := by
  cases node <;>
    simp [names, map, Handler.map, WithItem.map, Keyword.map, List.flatMap_map, Function.comp_def]

theorem names_numbered {α : Type} (node : Node α) : node.numbered.names = node.names := by
  rw [← names_map Prod.snd, map_numbered fun c : α => c, map_id]

/-- The names in a node are names on one line, and its children are of the right kind. -/
structure Orderly (node : Node Tree) : Prop where
  names : ∀ name ∈ node.names, name ≠ "" ∧ Text.Unbroken name.toList
  statements : ∀ c ∈ node.statements, c.kind.category = .statement
  expressions : ∀ c ∈ node.expressions, c.kind.category = .expression

instance (node : Node Tree) : Decidable node.Orderly :=
  decidable_of_iff ((∀ name ∈ node.names, name ≠ "" ∧ Text.Unbroken name.toList) ∧
      (∀ c ∈ node.statements, c.kind.category = .statement) ∧
      ∀ c ∈ node.expressions, c.kind.category = .expression)
    ⟨fun ⟨names, statements, expressions⟩ => ⟨names, statements, expressions⟩,
      fun ⟨names, statements, expressions⟩ => ⟨names, statements, expressions⟩⟩

end Node

namespace Tree

/-- All nodes of a tree are orderly. -/
def Orderly (t : Tree) : Prop :=
  ∀ d ∈ t.descendants, d.node.Orderly

instance (t : Tree) : Decidable t.Orderly :=
  inferInstanceAs (Decidable (∀ d ∈ t.descendants, d.node.Orderly))

namespace Orderly

variable {t : Tree}

theorem root (h : t.Orderly) : t.node.Orderly :=
  h t (mem_descendants_self t)

theorem child (h : t.Orderly) {c : Tree} (hc : c ∈ t.children) : c.Orderly :=
  fun d hd => h d (mem_descendants_of_child hc hd)

/-- A child of an orderly tree is an expression, or a statement that stands where statements
    belong. -/
theorem numbered (h : t.Orderly) {i : Nat} {c : Tree} (hc : t.children[i]? = some c) :
    (i, c) ∈ t.node.numbered.statements ∨ c.kind.category = .expression := by
  have hmem : (i, c) ∈ t.node.numbered.toList := by
    rw [Node.numbered, Node.toList_mapIdx, List.mem_iff_getElem?]
    exact ⟨i, by rw [List.getElem?_mapIdx, show t.node.toList[i]? = some c from hc]; rfl⟩
  exact (Node.mem_toList.mp hmem).imp_right fun hexpression =>
    h.root.expressions c (Node.mem_numbered_expressions hexpression)

/-- Inside an expression stand expressions. -/
theorem descend (h : t.Orderly) (hkind : t.kind.category = .expression) {path : Position}
    {s : Tree} (hs : t.descend? path = some s) : s.kind.category = .expression := by
  induction path generalizing t with
  | nil => exact Option.some.inj hs ▸ hkind
  | cons i path ih =>
    rw [descend_cons, Option.bind_eq_some_iff] at hs
    obtain ⟨c, hc, hs⟩ := hs
    have hmem : c ∈ t.node.toList := List.mem_of_getElem? hc
    refine ih (h.child hmem) (h.root.expressions c ?_) hs
    refine (Node.mem_toList.mp hmem).resolve_left fun hstatement => ?_
    rw [Node.statements_eq_nil hkind] at hstatement
    cases hstatement

/-- A child with a statement inside stands where statements belong. -/
theorem mem_statements (h : t.Orderly) {i : Nat} {c s : Tree} (hc : t.children[i]? = some c)
    {path : Position} (hs : c.descend? path = some s) (hkind : s.kind.category = .statement) :
    (i, c) ∈ t.node.numbered.statements := by
  refine (h.numbered hc).resolve_right fun hexpression => ?_
  have hcategory := (h.child (List.mem_of_getElem? hc)).descend hexpression hs
  rw [hkind] at hcategory
  cases hcategory

end Orderly

end Tree

end Rendition
