import Mathlib.Data.Finset.Basic
import Mathlib.Data.Finset.Lattice.Lemmas
import Mathlib.Data.Finset.Dedup
import Rendition.Proofs.Physl.Parts

/-!
# The names that a tree defines

A tree defines names in the function that it stands in: by assignments, and by definitions of
functions. The bodies of functions inside it are functions of their own, so they define nothing
here, and the variable of a loop is forgotten after the loop.

## Main definitions

* `Physl.assigned`: The names that a tree defines.
* `Physl.assignedAll`: The names that trees define one after another.
* `Physl.definedBy`: The names that the script of a node defines.

## Theorems

* `definedBy_subset`: The script of a node defines nothing else than the node.
* `definedBy_eq`: It defines all of it, unless the node is refused.
-/

namespace Rendition.Physl

/-- The names that a tree defines in the function that it stands in. -/
def assigned (t : Tree) : Finset String :=
  t.para fun _ node =>
    let all (children : List (Tree × Finset String)) : Finset String :=
      children.foldr (fun child names => child.2 ∪ names) ∅
    match node with
    | .functionDef name _ _ => {name}
    | .lambda _ _ => ∅
    | .assign target value => match target.1.node with
      | .ident id => insert id value.2
      | _ => all [target, value]
    | .forLoop target iter body => match target.1.node with
      | .ident id => iter.2 ∪ (all body).erase id
      | _ => all (target :: iter :: body)
    | node => all node.toList

/-- The names that trees define one after another. -/
def assignedAll (ts : List Tree) : Finset String :=
  ts.foldr (fun t names => assigned t ∪ names) ∅

@[simp] theorem assignedAll_nil : assignedAll [] = ∅ := rfl

@[simp] theorem assignedAll_cons (t : Tree) (rest : List Tree) :
    assignedAll (t :: rest) = assigned t ∪ assignedAll rest := rfl

theorem assignedAll_append (ts us : List Tree) :
    assignedAll (ts ++ us) = assignedAll ts ∪ assignedAll us := by
  induction ts with
  | nil => rw [List.nil_append, assignedAll_nil, Finset.empty_union]
  | cons t rest ih =>
    rw [List.cons_append, assignedAll_cons, assignedAll_cons, ih, Finset.union_assoc]

theorem mem_assignedAll {name : String} {ts : List Tree} :
    name ∈ assignedAll ts ↔ ∃ t ∈ ts, name ∈ assigned t := by
  induction ts with
  | nil => simp
  | cons t rest ih => simp [ih]

theorem assigned_mk (span : Span) (node : Node Tree) :
    assigned (.mk span node) = match node with
      | .functionDef name _ _ => {name}
      | .lambda _ _ => ∅
      | .assign target value => match target.node with
        | .ident id => insert id (assigned value)
        | _ => assignedAll [target, value]
      | .forLoop target iter body => match target.node with
        | .ident id => assigned iter ∪ (assignedAll body).erase id
        | _ => assignedAll (target :: iter :: body)
      | node => assignedAll node.toList := by
  have hall : ∀ ts : List Tree,
      (ts.map fun t => (t, assigned t)).foldr (fun child names => child.2 ∪ names) ∅ =
        assignedAll ts := by
    intro ts
    rw [List.foldr_map]
    rfl
  have hnode := hall node.toList
  rw [← Node.toList_map] at hnode
  rw [assigned, Tree.para_mk]
  cases node with
  | functionDef name params body => rfl
  | lambda params body => rfl
  | assign target value =>
    rcases target with ⟨tspan, tnode⟩
    cases tnode <;> rfl
  | forLoop target iter body =>
    rcases target with ⟨tspan, tnode⟩
    cases tnode with
    | ident id => exact congrArg (fun names => assigned iter ∪ names.erase id) (hall body)
    | _ => exact hnode
  | _ => exact hnode

/-- The names that the script of a node defines, by itself and in the parts. -/
def definedBy (node : Node Tree) : Finset String :=
  match binding node, (parts node).map Prod.snd with
  | .none, parts => assignedAll parts
  | .function name _, _ => {name}
  | .lambda _, _ => ∅
  | .loop name, iter :: body => assigned iter ∪ (assignedAll body).erase name
  | .loop _, [] => ∅
  | .name id, parts => insert id (assignedAll parts)

theorem assigned_ident {t : Tree} {id : String} (h : t.node = .ident id) : assigned t = ∅ := by
  rcases t with ⟨span, node⟩
  obtain rfl : node = .ident id := h
  exact assigned_mk ..

/-- The object of a method call defines what the method does. -/
theorem assignedAll_receiver {func : Tree} (h : isCallee func = true) :
    assignedAll ((receiver func).map Prod.snd) = assigned func := by
  rcases func with ⟨span, node⟩
  cases node with
  | ident id => exact (assigned_ident rfl).symm
  | attr value name =>
    have hfunc : assigned (.mk span (.attr value name)) = assigned value ∪ ∅ := assigned_mk ..
    rcases halias : isModuleAlias value.node with _ | _
    · simp [receiver, halias, hfunc]
    · obtain ⟨id, hid⟩ := ident_of_isModuleAlias halias
      simp [receiver, halias, hfunc, assigned_ident hid]
  | _ => cases h

theorem assignedAll_indices (index : Tree) :
    assignedAll ((indices index).map Prod.snd) = assigned index := by
  rcases index with ⟨span, node⟩
  cases node with
  | tuple items =>
    have hindex : assigned (.mk span (.tuple items)) = assignedAll items := assigned_mk ..
    rw [hindex, indices]
    simp only [Tree.node_mk, map_snd_below]
  | _ => simp [indices]

/-- Unless a node is refused, its script defines what the node does. -/
theorem definedBy_eq (span : Span) {node : Node Tree} (hrefuses : refuses node = false)
    (hdeclines : declines node = false) : definedBy node = assigned (.mk span node) := by
  rw [assigned_mk]
  cases node with
  | assign target value =>
    rcases target with ⟨tspan, tnode⟩
    cases tnode with
    | ident id => simp [definedBy, binding, parts, element]
    | subscript a b => simp [definedBy, binding, parts, element, Finset.union_comm]
    | _ => cases hdeclines
  | forLoop target iter body =>
    rcases target with ⟨tspan, tnode⟩
    cases tnode with
    | ident id => simp [definedBy, binding, parts, map_snd_below]
    | _ => cases hrefuses
  | call func args keywords =>
    rw [refuses, Bool.not_eq_false'] at hrefuses
    simp [definedBy, binding, parts, Node.toList, map_snd_below, assignedAll_append,
      assignedAll_receiver hrefuses]
  | attr value name =>
    rcases halias : isModuleAlias value.node with _ | _
    · simp [definedBy, binding, parts, Node.toList, halias]
    · obtain ⟨id, hid⟩ := ident_of_isModuleAlias halias
      simp [definedBy, binding, parts, Node.toList, halias, assigned_ident hid]
  | subscript value index =>
    simp [definedBy, binding, parts, Node.toList, assignedAll_indices]
  | _ => simp [definedBy, binding, parts, Node.toList, map_snd_below]

/-- The script of a node defines nothing else than the node. -/
theorem definedBy_subset (span : Span) {node : Node Tree} (hrefuses : refuses node = false) :
    definedBy node ⊆ assigned (.mk span node) := by
  rcases hdeclines : declines node with _ | _
  · exact (definedBy_eq span hrefuses hdeclines).subset
  rw [assigned_mk]
  cases node with
  | assign target value =>
    rcases target with ⟨tspan, tnode⟩
    cases tnode with
    | ident id => cases hdeclines
    | subscript a b => cases hdeclines
    | _ => simp [definedBy, binding, parts, element]
  | unaryOp op operand => simp [definedBy, binding, parts, Node.toList, map_snd_below]
  | _ => cases hdeclines

end Rendition.Physl
