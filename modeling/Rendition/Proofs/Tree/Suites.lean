import Rendition.Proofs.Tree.Placement
import Rendition.Proofs.Tree.Replacement

/-!
# Suites around a position

The statements inside a statement stand in its suites, with one exception: a conditional statement
alone in the `else` of another one continues it, and its branches are on one level with the first.
The statements of a whole source text stand in no suite.

## Main definitions

* `Node.nested`: The statements in the suites of a node.
* `Node.flush`: The statements in a node that stand on the level of the node.
* `Tree.suites`: The number of suites around a position.

## Theorems

* `Node.mem_numbered`: Children are numbered by their places in the list of children.
* `Node.not_mem_nested_of_flush`: No child stands both in a suite and on the level of the node.
* `Tree.suites_cons`: One step of the definition.
-/

namespace Rendition

variable {α β : Type}

namespace Node

/-- The statements in the suites of a node. -/
def nested (isIf : α → Bool) : Node α → List α
  | moduleDef _ => []
  | ifStmt _ body [single] => if isIf single then body else body ++ [single]
  | node => node.statements

/-- The statements in a node that stand on the level of the node. -/
def flush (isIf : α → Bool) : Node α → List α
  | moduleDef body => body
  | ifStmt _ _ [single] => if isIf single then [single] else []
  | _ => []

theorem nested_map (f : α → β) (isIf : β → Bool) (node : Node α) :
    (node.map f).nested isIf = (node.nested fun a => isIf (f a)).map f := by
  cases node with
  | ifStmt test body orelse =>
    rcases orelse with _ | ⟨single, _ | ⟨second, rest⟩⟩
    · simp [nested, map, statements]
    · simp only [nested, map, List.map_cons, List.map_nil]
      split <;> simp
    · simp [nested, map, statements]
  | tryStmt body handlers finalbody =>
    simp [nested, map, statements, Handler.map, List.flatMap_map, List.map_flatMap]
  | _ => rfl

theorem flush_map (f : α → β) (isIf : β → Bool) (node : Node α) :
    (node.map f).flush isIf = (node.flush fun a => isIf (f a)).map f := by
  cases node with
  | ifStmt test body orelse =>
    rcases orelse with _ | ⟨single, _ | ⟨second, rest⟩⟩
    · rfl
    · simp only [flush, map, List.map_cons, List.map_nil]
      split <;> rfl
    · rfl
  | _ => rfl

theorem mem_statements_of_nested {isIf : α → Bool} {c : α} {node : Node α}
    (h : c ∈ node.nested isIf) : c ∈ node.statements := by
  cases node with
  | moduleDef body => cases h
  | ifStmt test body orelse =>
    rcases orelse with _ | ⟨single, _ | ⟨second, rest⟩⟩
    · exact h
    · simp only [nested] at h
      split at h
      · exact List.mem_append_left _ h
      · exact h
    · exact h
  | _ => exact h

theorem mem_statements_of_flush {isIf : α → Bool} {c : α} {node : Node α}
    (h : c ∈ node.flush isIf) : c ∈ node.statements := by
  cases node with
  | moduleDef body => exact h
  | ifStmt test body orelse =>
    rcases orelse with _ | ⟨single, _ | ⟨second, rest⟩⟩
    · cases h
    · simp only [flush] at h
      split at h
      · exact List.mem_append_right _ h
      · cases h
    · cases h
  | _ => cases h

/-- The children with their numbers. -/
def numbered (node : Node α) : Node (Nat × α) :=
  node.mapIdx Prod.mk

theorem mapIdx_eq_numbered (f : Nat → α → β) (node : Node α) :
    node.mapIdx f = node.numbered.map fun pair => f pair.1 pair.2 :=
  (map_mapIdx (fun pair : Nat × α => f pair.1 pair.2) Prod.mk node).symm

theorem map_numbered (f : α → β) (node : Node α) :
    node.numbered.map (fun pair => f pair.2) = node.map f := by
  rw [← mapIdx_eq_numbered (fun _ => f), mapIdx_const]

theorem mem_numbered {i : Nat} {c : α} {node : Node α} (h : (i, c) ∈ node.numbered.toList) :
    node.toList[i]? = some c := by
  rw [numbered, toList_mapIdx, List.mem_iff_getElem?] at h
  obtain ⟨j, hj⟩ := h
  rw [List.getElem?_mapIdx, Option.map_eq_some_iff] at hj
  obtain ⟨d, hd, heq⟩ := hj
  obtain ⟨rfl, rfl⟩ := Prod.mk.inj heq
  exact hd

/-- A statement among the numbered children is a statement in the node, with its number. -/
theorem mem_numbered_statements {pair : Nat × α} {node : Node α}
    (h : pair ∈ node.numbered.statements) :
    node.toList[pair.1]? = some pair.2 ∧ pair.2 ∈ node.statements := by
  refine ⟨mem_numbered (mem_of_mem_statements h), ?_⟩
  have hsnd := List.mem_map_of_mem (f := Prod.snd) h
  rwa [← statements_map, map_numbered fun c : α => c, map_id] at hsnd

/-- An expression among the numbered children is an expression in the node. -/
theorem mem_numbered_expressions {pair : Nat × α} {node : Node α}
    (h : pair ∈ node.numbered.expressions) : pair.2 ∈ node.expressions := by
  have hsnd := List.mem_map_of_mem (f := Prod.snd) h
  rwa [← expressions_map, map_numbered fun c : α => c, map_id] at hsnd

/-- No child stands both in a suite and on the level of the node. -/
theorem not_mem_nested_of_flush {isIf : Nat × α → Bool} {i : Nat} {c : α} {node : Node α}
    (h : (i, c) ∈ node.numbered.flush isIf) : i ∉ (node.numbered.nested isIf).map Prod.fst := by
  cases node with
  | moduleDef body => exact List.not_mem_nil
  | ifStmt test body orelse =>
    rcases orelse with _ | ⟨single, _ | ⟨second, rest⟩⟩
    · cases h
    · simp only [numbered, mapIdx, flush, nested, List.mapIdx_cons, List.mapIdx_nil] at h ⊢
      split at h
      · next hif =>
        -- The condition continued has the number behind all of the first branch.
        obtain ⟨rfl, -⟩ := Prod.mk.inj (List.mem_singleton.mp h)
        rw [if_pos hif]
        intro hmem
        obtain ⟨pair, hpair, hfst⟩ := List.mem_map.mp hmem
        obtain ⟨j, hj, rfl⟩ := List.mem_mapIdx.mp hpair
        simp only at hfst
        omega
      · cases h
    · simp only [numbered, mapIdx, flush, List.mapIdx_cons] at h
      cases h
  | _ => cases h

end Node

namespace Tree

/-- The children of the root that stand in its suites, with their numbers. -/
def nested (t : Tree) : List (Nat × Tree) :=
  t.node.numbered.nested fun pair => pair.2.kind = .ifStmt

/-- The number of suites around what stands at a position. -/
def suites : Tree → Position → Nat
  | _, [] => 0
  | t, i :: path =>
    (if i ∈ t.nested.map Prod.fst then 1 else 0) +
      (t.children[i]?.elim 0 fun child => child.suites path)

theorem suites_cons {t c : Tree} {i : Nat} (hc : t.children[i]? = some c) (path : Position) :
    t.suites (i :: path) = (if i ∈ t.nested.map Prod.fst then 1 else 0) + c.suites path := by
  rw [suites, hc]
  rfl

theorem suites_append {t s : Tree} {path : Position} (hs : t.descend? path = some s)
    (rest : Position) : t.suites (path ++ rest) = t.suites path + s.suites rest := by
  induction path generalizing t with
  | nil =>
    obtain rfl : t = s := Option.some.inj hs
    rw [List.nil_append, suites, Nat.zero_add]
  | cons i path ih =>
    rw [descend_cons, Option.bind_eq_some_iff] at hs
    obtain ⟨c, hc, hs⟩ := hs
    rw [List.cons_append, suites_cons hc, suites_cons hc, ih hs, Nat.add_assoc]

/-- A conditional statement alone in the `else` of another one is in as many suites. -/
theorem suites_single {t test single : Tree} {path : Position} {span : Span} {body : List Tree}
    (hs : t.descend? path = some (.mk span (.ifStmt test body [single])))
    (hkind : single.kind = .ifStmt) : t.suites (path ++ [body.length + 1]) = t.suites path := by
  have hsingle : (Tree.mk span (.ifStmt test body [single])).children[body.length + 1]? =
      some single := by
    simp only [children, node, Node.toList, List.getElem?_cons_succ, List.getElem?_concat_length]
  have hflush : (body.length + 1, single) ∈
      (Node.ifStmt test body [single]).numbered.flush fun pair => pair.2.kind = .ifStmt := by
    simp only [Node.numbered, Node.mapIdx, Node.flush, List.mapIdx_cons, List.mapIdx_nil, hkind,
      decide_true, if_true, Nat.zero_add, List.mem_singleton]
  have hnested : body.length + 1 ∉
      (Tree.mk span (.ifStmt test body [single])).nested.map Prod.fst :=
    Node.not_mem_nested_of_flush hflush
  rw [suites_append hs, suites_cons hsingle, if_neg hnested, suites, Nat.add_zero]

end Tree

end Rendition
