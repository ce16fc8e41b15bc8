import Mathlib.Data.List.Basic
import Rendition.Tree.Basic

/-!
# Positions in a tree

A position is the list of the numbers of the children taken on the way down from the root, as
`Tree.descend?` follows it. To tell the children of a node their numbers, a node can be mapped
together with them: `Node.mapIdx` counts in the order of `Node.toList`, so the number that a child
is told is the one that `descend?` finds it under.

## Main definitions

* `Position`: The numbers of the children taken on the way down.
* `Node.mapIdx`: The same node with other children, each made from its number and the old one.

## Theorems

* `mapIdx_map`: Numbering does not depend on what the children are.
* `toList_mapIdx`: The numbers are those of the list of children.
* `descend_append`: Descending in two steps.
-/

namespace Rendition

/-- The numbers of the children taken on the way down from the root. -/
abbrev Position := List Nat

variable {α β γ : Type}

theorem list_mapIdx_map (f : Nat → β → γ) (g : α → β) (l : List α) :
    (l.map g).mapIdx f = l.mapIdx fun i a => f i (g a) := by
  refine List.ext_getElem? fun i => ?_
  simp only [List.getElem?_mapIdx, List.getElem?_map, Option.map_map, Function.comp_def]

theorem list_map_mapIdx (g : β → γ) (f : Nat → α → β) (l : List α) :
    (l.mapIdx f).map g = l.mapIdx fun i a => g (f i a) := by
  refine List.ext_getElem? fun i => ?_
  simp only [List.getElem?_mapIdx, List.getElem?_map, Option.map_map, Function.comp_def]

/-- The same clause with other children, counted from `start`. -/
def Handler.mapIdx (f : Nat → α → β) (start : Nat) (h : Handler α) : Handler β :=
  ⟨h.span, h.exception.map (f start), h.name,
    h.body.mapIdx fun i => f (i + (start + h.exception.toList.length))⟩

/-- The clauses with other children, counted from `start`. -/
def mapIdxHandlers (f : Nat → α → β) : Nat → List (Handler α) → List (Handler β)
  | _, [] => []
  | start, h :: rest => h.mapIdx f start :: mapIdxHandlers f (start + h.toList.length) rest

theorem mapIdxHandlers_map (f : Nat → β → γ) (g : α → β) (hs : List (Handler α)) :
    ∀ start, mapIdxHandlers f start (hs.map (Handler.map g)) =
      mapIdxHandlers (fun i a => f i (g a)) start hs := by
  induction hs with
  | nil => intro start; rfl
  | cons h rest ih =>
    intro start
    have hlen : (h.map g).toList.length = h.toList.length := by
      simp only [Handler.toList, Handler.map, List.length_append, List.length_map,
        Option.toList_map]
    simp only [List.map_cons, mapIdxHandlers, hlen, ih]
    congr 1
    simp only [Handler.mapIdx, Handler.map, Option.map_map, Option.toList_map, List.length_map,
      list_mapIdx_map, Function.comp_def]

theorem flatMap_mapIdxHandlers (f : Nat → α → β) (hs : List (Handler α)) :
    ∀ start, (mapIdxHandlers f start hs).flatMap Handler.toList =
      (hs.flatMap Handler.toList).mapIdx fun i => f (i + start) := by
  induction hs with
  | nil => intro start; rfl
  | cons h rest ih =>
    intro start
    have hfirst : (h.mapIdx f start).toList = h.toList.mapIdx fun i => f (i + start) := by
      rcases h with ⟨span, exception, name, body⟩
      cases exception with
      | none => simp only [Handler.mapIdx, Handler.toList, Option.map_none, Option.toList_none,
          List.nil_append, List.length_nil, Nat.add_zero]
      | some e =>
        simp only [Handler.mapIdx, Handler.toList, Option.map_some, Option.toList_some,
          List.cons_append, List.nil_append, List.length_cons, List.length_nil, List.mapIdx_cons,
          Nat.zero_add, Nat.add_comm start, Nat.add_assoc]
    simp only [mapIdxHandlers, List.flatMap_cons, List.mapIdx_append, hfirst, ih]
    simp only [Nat.add_assoc, Nat.add_comm start]

namespace Node

/-- The same node with other children, each made from its number and the old one. -/
def mapIdx (f : Nat → α → β) : Node α → Node β
  | moduleDef body => moduleDef (body.mapIdx f)
  | functionDef name params body => functionDef name params (body.mapIdx f)
  | returnStmt value => returnStmt (value.map (f 0))
  | assign target value => assign (f 0 target) (f 1 value)
  | augAssign target op value => augAssign (f 0 target) op (f 1 value)
  | exprStmt value => exprStmt (f 0 value)
  | ifStmt test body orelse =>
    ifStmt (f 0 test) (body.mapIdx fun i => f (i + 1))
      (orelse.mapIdx fun i => f (i + body.length + 1))
  | whileLoop test body => whileLoop (f 0 test) (body.mapIdx fun i => f (i + 1))
  | forLoop target iter body =>
    forLoop (f 0 target) (f 1 iter) (body.mapIdx fun i => f (i + 2))
  | passStmt => passStmt
  | breakStmt => breakStmt
  | continueStmt => continueStmt
  | tryStmt body handlers finalbody =>
    tryStmt (body.mapIdx f) (mapIdxHandlers f body.length handlers)
      (finalbody.mapIdx fun i => f (i + (body ++ handlers.flatMap Handler.toList).length))
  | withStmt items body =>
    withStmt (items.mapIdx fun i item => ⟨f i item.context, item.asName⟩)
      (body.mapIdx fun i => f (i + items.length))
  | raiseStmt exception => raiseStmt (exception.map (f 0))
  | classDef name bases body =>
    classDef name (bases.mapIdx f) (body.mapIdx fun i => f (i + bases.length))
  | importStmt source names => importStmt source names
  | ident id => ident id
  | constant value => constant value
  | binOp left op right => binOp (f 0 left) op (f 1 right)
  | unaryOp op operand => unaryOp op (f 0 operand)
  | compare left ops comparators =>
    compare (f 0 left) ops (comparators.mapIdx fun i => f (i + 1))
  | boolOp op values => boolOp op (values.mapIdx f)
  | call func args keywords =>
    call (f 0 func) (args.mapIdx fun i => f (i + 1))
      (keywords.mapIdx fun i keyword => ⟨keyword.name, f (i + args.length + 1) keyword.value⟩)
  | attr value name => attr (f 0 value) name
  | subscript value index => subscript (f 0 value) (f 1 index)
  | slice lower upper step =>
    slice (lower.map (f 0)) (upper.map (f lower.toList.length))
      (step.map (f (lower.toList ++ upper.toList).length))
  | list items => list (items.mapIdx f)
  | tuple items => tuple (items.mapIdx f)
  | dict entries => dict (entries.mapIdx fun i entry => (f (2 * i) entry.1, f (2 * i + 1) entry.2))
  | ifExp test body orelse => ifExp (f 0 test) (f 1 body) (f 2 orelse)
  | lambda params body => lambda params (f 0 body)

theorem mapIdx_map (f : Nat → β → γ) (g : α → β) (node : Node α) :
    (node.map g).mapIdx f = node.mapIdx fun i a => f i (g a) := by
  cases node <;>
    simp [map, mapIdx, WithItem.map, Keyword.map, mapIdxHandlers_map, List.flatMap_map,
      list_mapIdx_map, Handler.toList, Handler.map, Option.toList_map, Function.comp_def]

/-- The entries of a dictionary count twice, once for the key and once for the value. -/
theorem flatMap_mapIdx_entries (f : Nat → α → β) (entries : List (α × α)) :
    ∀ start,
      (entries.mapIdx fun i e => (f (2 * i + start) e.1, f (2 * i + 1 + start) e.2)).flatMap
          (fun e => [e.1, e.2]) =
        (entries.flatMap fun e => [e.1, e.2]).mapIdx fun i => f (i + start) := by
  induction entries with
  | nil => intro start; rfl
  | cons e rest ih =>
    intro start
    have hkey : ∀ i, 2 * (i + 1) + start = 2 * i + (start + 2) := fun i => by omega
    have hvalue : ∀ i, 2 * (i + 1) + 1 + start = 2 * i + 1 + (start + 2) := fun i => by omega
    have hboth : ∀ i, i + 1 + 1 + start = i + (start + 2) := fun i => by omega
    simp only [List.mapIdx_cons, List.flatMap_cons, List.cons_append, List.nil_append,
      Nat.mul_zero, Nat.zero_add, hkey, hvalue, hboth, ih (start + 2)]

theorem toList_mapIdx (f : Nat → α → β) (node : Node α) :
    (node.mapIdx f).toList = node.toList.mapIdx f := by
  cases node with
  | returnStmt value => cases value <;> rfl
  | raiseStmt exception => cases exception <;> rfl
  | slice lower upper step => cases lower <;> cases upper <;> cases step <;> rfl
  | tryStmt body handlers finalbody =>
    simp only [mapIdx, toList, List.mapIdx_append, flatMap_mapIdxHandlers]
  | dict entries =>
    have h := flatMap_mapIdx_entries f entries 0
    simpa only [mapIdx, toList, Nat.add_zero] using h
  | _ => simp [mapIdx, toList, List.mapIdx_append, list_mapIdx_map, list_map_mapIdx,
      Nat.add_assoc]

@[simp] theorem kind_mapIdx (f : Nat → α → β) (node : Node α) :
    (node.mapIdx f).kind = node.kind := by
  cases node <;> rfl

end Node

namespace Tree

theorem descend_cons (t : Tree) (i : Nat) (path : Position) :
    t.descend? (i :: path) = t.children[i]?.bind fun child => child.descend? path := by
  rw [descend?]

theorem descend_append (p q : Position) :
    ∀ t : Tree, t.descend? (p ++ q) = (t.descend? p).bind fun u => u.descend? q := by
  induction p with
  | nil => intro t; simp only [List.nil_append, descend?, Option.bind_some]
  | cons i rest ih =>
    intro t
    rw [List.cons_append, descend_cons, descend_cons]
    rcases t.children[i]? with _ | child
    · rfl
    · simp only [Option.bind_some]
      exact ih child

end Tree

end Rendition
