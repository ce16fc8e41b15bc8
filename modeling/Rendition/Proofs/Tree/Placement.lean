import Rendition.Json.Basic
import Rendition.Proofs.Json.Members
import Rendition.Tree.Basic

/-!
# Where children stand

Every child of a node stands where statements belong or where expressions belong, and some of the
latter may be absent. A tree that comes from a source text has statements where they belong and
expressions elsewhere, which the type of trees does not ask for.

Where the order of the keyword arguments of a call does not count, it is forgotten by sorting them.

## Main definitions

* `Category`: What a kind of nodes is: a whole source text, a statement or an expression.
* `Node.statements`, `Node.expressions`: The children that stand where either belongs.
* `Node.optionals`: The children that may be absent.
* `Tree.sortKeywords`: The tree with keyword arguments in order of their names.

## Theorems

* `Node.mem_toList`: Every child stands where statements or where expressions belong.
* `sortKeywords_map`, `mem_expressions_sortKeywords`: What sorting does to children.
-/

namespace Rendition

/-- What a kind of nodes is. -/
inductive Category where
  | source | statement | expression
  deriving DecidableEq

/-- What nodes of a kind are. -/
def NodeKind.category : NodeKind → Category
  | moduleDef => .source
  | functionDef | returnStmt | assign | augAssign | exprStmt | ifStmt | whileLoop | forLoop
  | passStmt | breakStmt | continueStmt | tryStmt | withStmt | raiseStmt | classDef | importStmt =>
    .statement
  | ident | constant | binOp | unaryOp | compare | boolOp | call | attr | subscript | slice | list
  | tuple | dict | ifExp | lambda => .expression

namespace Node

variable {α β : Type}

/-- The children that stand where statements belong. -/
def statements : Node α → List α
  | moduleDef body => body
  | functionDef _ _ body => body
  | ifStmt _ body orelse => body ++ orelse
  | whileLoop _ body => body
  | forLoop _ _ body => body
  | tryStmt body handlers finalbody => body ++ handlers.flatMap Handler.body ++ finalbody
  | withStmt _ body => body
  | classDef _ _ body => body
  | _ => []

/-- The children that stand where expressions belong. -/
def expressions : Node α → List α
  | moduleDef _ => []
  | functionDef _ _ _ => []
  | ifStmt test _ _ => [test]
  | whileLoop test _ => [test]
  | forLoop target iter _ => [target, iter]
  | tryStmt _ handlers _ => handlers.flatMap fun handler => handler.exception.toList
  | withStmt items _ => items.map WithItem.context
  | classDef _ bases _ => bases
  | node => node.toList

/-- The children that may be absent. -/
def optionals : Node α → List α
  | returnStmt value => value.toList
  | tryStmt _ handlers _ => handlers.flatMap fun handler => handler.exception.toList
  | raiseStmt exception => exception.toList
  | slice lower upper step => lower.toList ++ upper.toList ++ step.toList
  | _ => []

/-- The node with keyword arguments in order of their names. -/
def sortKeywords : Node α → Node α
  | call func args keywords =>
    call func args (keywords.mergeSort fun a b => Json.keyLe a.name b.name)
  | node => node

theorem mem_of_mem_statements {c : α} {node : Node α} (h : c ∈ node.statements) :
    c ∈ node.toList := by
  cases node with
  | tryStmt body handlers finalbody =>
    -- The suites of clauses come after the exceptions there.
    simp only [statements, toList, List.mem_append, List.mem_flatMap, Handler.toList] at h ⊢
    rcases h with (h | ⟨handler, hmem, h⟩) | h
    · exact .inl (.inl h)
    · exact .inl (.inr ⟨handler, hmem, .inr h⟩)
    · exact .inr h
  | _ => simp_all [statements, toList]

theorem mem_of_mem_expressions {c : α} {node : Node α} (h : c ∈ node.expressions) :
    c ∈ node.toList := by
  cases node with
  | tryStmt body handlers finalbody =>
    simp only [expressions, toList, List.mem_append, List.mem_flatMap, Handler.toList] at h ⊢
    obtain ⟨handler, hmem, h⟩ := h
    exact .inl (.inr ⟨handler, hmem, .inl h⟩)
  | forLoop target iter body => exact List.mem_append_left body h
  | _ => simp_all [expressions, toList]

/-- Every child stands where statements or where expressions belong. -/
theorem mem_toList {c : α} {node : Node α} :
    c ∈ node.toList ↔ c ∈ node.statements ∨ c ∈ node.expressions := by
  refine ⟨fun h => ?_, fun h => h.elim mem_of_mem_statements mem_of_mem_expressions⟩
  cases node with
  | tryStmt body handlers finalbody =>
    simp only [toList, List.mem_append, List.mem_flatMap, Handler.toList] at h
    simp only [statements, expressions, List.mem_append, List.mem_flatMap]
    rcases h with (h | ⟨handler, hmem, h | h⟩) | h
    · exact .inl (.inl (.inl h))
    · exact .inr ⟨handler, hmem, h⟩
    · exact .inl (.inl (.inr ⟨handler, hmem, h⟩))
    · exact .inl (.inr h)
  | _ => simp_all [statements, expressions, toList] <;> grind

/-- The children of an expression are expressions. -/
theorem statements_eq_nil {node : Node α} (h : node.kind.category = .expression) :
    node.statements = [] := by
  cases node <;> first | rfl | cases h

theorem statements_map (f : α → β) (node : Node α) :
    (node.map f).statements = node.statements.map f := by
  cases node <;> simp [statements, map, Handler.map, List.flatMap_map, List.map_flatMap]

theorem expressions_map (f : α → β) (node : Node α) :
    (node.map f).expressions = node.expressions.map f := by
  cases node <;>
    simp [expressions, map, toList, Handler.map, WithItem.map, Keyword.map, List.flatMap_map,
      List.map_flatMap, Option.toList_map]

theorem optionals_map (f : α → β) (node : Node α) :
    (node.map f).optionals = node.optionals.map f := by
  cases node <;> simp [optionals, map, Handler.map, List.flatMap_map, List.map_flatMap,
    Option.toList_map]

theorem mem_expressions_of_optionals {c : α} {node : Node α} (h : c ∈ node.optionals) :
    c ∈ node.expressions := by
  cases node <;> simp_all [optionals, expressions, toList]

theorem sortKeywords_map (f : α → β) (node : Node α) :
    (node.map f).sortKeywords = node.sortKeywords.map f := by
  cases node with
  | call func args keywords =>
    have hsort := @List.map_mergeSort _ _ (fun a b => Json.keyLe a.name b.name)
      (fun a b => Json.keyLe a.name b.name) (Keyword.map f) keywords fun _ _ _ _ => rfl
    simp only [sortKeywords, map, hsort]
  | _ => rfl

theorem kind_sortKeywords (node : Node α) : node.sortKeywords.kind = node.kind := by
  cases node <;> rfl

theorem statements_sortKeywords (node : Node α) :
    node.sortKeywords.statements = node.statements := by
  cases node <;> rfl

/-- Sorted or not, the same children stand where expressions belong. -/
theorem mem_expressions_sortKeywords {c : α} {node : Node α} :
    c ∈ node.sortKeywords.expressions ↔ c ∈ node.expressions := by
  cases node with
  | call func args keywords =>
    -- Sorting moves the values of keyword arguments along with their names.
    have hperm := List.mergeSort_perm keywords fun a b => Json.keyLe a.name b.name
    simp only [sortKeywords, expressions, toList, List.mem_cons, List.mem_append,
      (hperm.map Keyword.value).mem_iff]
  | _ => rfl

end Node

namespace Tree

/-- The tree with the keyword arguments of every call in order of their names. -/
def sortKeywords (t : Tree) : Tree :=
  t.fold fun span node => mk span node.sortKeywords

theorem sortKeywords_mk (span : Span) (node : Node Tree) :
    sortKeywords (mk span node) = mk span (node.sortKeywords.map sortKeywords) := by
  rw [sortKeywords, fold_mk, Node.sortKeywords_map]
  rfl

end Tree

end Rendition
