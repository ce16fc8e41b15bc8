import Rendition.Proofs.Physl.Script

/-!
# What is rendered below a node

The parts of a node lie below it, at positions none of which continues another. Where a node is not
refused, little else lies below it: a tree below a node that is not inside one of the parts is a
name, an attribute or a tuple of indices.

## Main definitions

* `Apart`: Two positions neither of which continues the other.
* `Physl.isGlance`: Whether a tree is of a kind that is only looked at below some nodes.

## Theorems

* `mem_descendants`: The descendants of a tree are what its positions lead to.
* `steps_parts`: A part is a child, or a child of one that is only looked at.
* `descend_parts`: The position of a part leads to it.
* `partsInduction`: What holds of a tree when it holds of its parts holds of all trees.
* `apart_parts`: No part lies inside another.
* `reach_parts`: What lies below a node lies inside one of its parts or is only looked at.
-/

namespace Rendition

namespace Tree

theorem height_descend {u : Tree} : ∀ {path : Position} {t : Tree}, t.descend? path = some u →
    u.height ≤ t.height := by
  intro path
  induction path with
  | nil =>
    intro t h
    simp only [descend?, Option.some.injEq] at h
    exact Nat.le_of_eq (by rw [h])
  | cons i rest ih =>
    intro t h
    rcases t with ⟨span, node⟩
    rw [descend_cons, Option.bind_eq_some_iff] at h
    obtain ⟨child, hchild, hu⟩ := h
    have hlt : child.height < (mk span node).height :=
      height_lt_of_mem (List.mem_of_getElem? hchild)
    exact Nat.le_trans (ih hu) (Nat.le_of_lt hlt)

theorem height_descend_lt {u t : Tree} {path : Position} (h : t.descend? path = some u)
    (hne : path ≠ []) : u.height < t.height := by
  rcases path with _ | ⟨i, rest⟩
  · exact absurd rfl hne
  rcases t with ⟨span, node⟩
  rw [descend_cons, Option.bind_eq_some_iff] at h
  obtain ⟨child, hchild, hu⟩ := h
  exact Nat.lt_of_le_of_lt (height_descend hu) (height_lt_of_mem (List.mem_of_getElem? hchild))

/-- The descendants of a tree are what its positions lead to. -/
theorem mem_descendants {d : Tree} : ∀ {t : Tree},
    d ∈ t.descendants ↔ ∃ path, t.descend? path = some d := by
  intro t
  induction t using inductionOn with
  | step span node ih =>
    rw [descendants_mk, List.mem_cons, List.mem_flatMap]
    constructor
    · rintro (rfl | ⟨child, hchild, hd⟩)
      · exact ⟨[], rfl⟩
      · obtain ⟨i, hi⟩ := List.mem_iff_getElem?.mp hchild
        obtain ⟨path, hpath⟩ := (ih child hchild).mp hd
        refine ⟨i :: path, ?_⟩
        rw [descend_cons]
        simp only [children, node_mk, hi, Option.bind_some, hpath]
    · rintro ⟨_ | ⟨i, path⟩, h⟩
      · simp only [descend?, Option.some.injEq] at h
        exact .inl h.symm
      · rw [descend_cons, Option.bind_eq_some_iff] at h
        obtain ⟨child, hchild, hd⟩ := h
        have hmem : child ∈ node.toList := List.mem_of_getElem? hchild
        exact .inr ⟨child, hmem, (ih child hmem).mpr ⟨path, hd⟩⟩

end Tree

/-- Two positions neither of which continues the other. -/
def Apart (p q : Position) : Prop :=
  ∀ r r', p ++ r ≠ q ++ r'

theorem Apart.symm {p q : Position} (h : Apart p q) : Apart q p :=
  fun r r' heq => h r' r heq.symm

theorem apart_singles {i j : Nat} (h : i ≠ j) (p q : Position) : Apart (i :: p) (j :: q) := by
  intro r r' heq
  simp only [List.cons_append, List.cons.injEq] at heq
  exact h heq.1

theorem Apart.append_left {p q : Position} (h : Apart p q) (r : Position) :
    Apart (r ++ p) (r ++ q) := by
  intro s s' heq
  rw [List.append_assoc, List.append_assoc, List.append_cancel_left_eq] at heq
  exact h s s' heq

namespace Physl

theorem getElem_below (rel : Position) (start : Nat) (ts : List Tree) (i : Nat) :
    (below rel start ts)[i]? = ts[i]?.map fun t => (rel ++ [i + start], t) := by
  simp only [below, List.getElem?_mapIdx]

theorem mem_below {rel : Position} {start : Nat} {ts : List Tree} {part : Position × Tree} :
    part ∈ below rel start ts ↔
      ∃ i, ts[i]? = some part.2 ∧ part.1 = rel ++ [i + start] := by
  rw [List.mem_iff_getElem?]
  constructor
  · rintro ⟨i, h⟩
    rw [getElem_below, Option.map_eq_some_iff] at h
    obtain ⟨t, ht, rfl⟩ := h
    exact ⟨i, ht, rfl⟩
  · rintro ⟨i, ht, hp⟩
    refine ⟨i, ?_⟩
    rw [getElem_below, ht, ← hp]
    rfl

theorem map_snd_below (rel : Position) (start : Nat) (ts : List Tree) :
    (below rel start ts).map Prod.snd = ts := by
  refine List.ext_getElem? fun i => ?_
  rw [List.getElem?_map, getElem_below]
  rcases ts[i]? <;> rfl

theorem apart_below (rel : Position) (start : Nat) (ts : List Tree) :
    (below rel start ts).Pairwise fun a b => Apart a.1 b.1 := by
  rw [List.pairwise_iff_getElem]
  intro i j hi hj hij
  have hpos : ∀ k (hk : k < (below rel start ts).length),
      (below rel start ts)[k].1 = rel ++ [k + start] := by
    intro k hk
    simp only [below, List.getElem_mapIdx]
  rw [hpos i hi, hpos j hj]
  exact (apart_singles (by omega) [] []).append_left rel

/-- Whether a tree is of a kind that is looked at, but not rendered, below some nodes. -/
def isGlance (t : Tree) : Bool :=
  match t.node with
  | .ident _ | .attr .. | .tuple _ => true
  | _ => false

section Parts

variable {span : Span} {node : Node Tree}

theorem mem_element {target : Tree} {part : Position × Tree} (h : part ∈ element target) :
    part = ([0], target) := by
  rcases target with ⟨span, node⟩
  cases node <;> simp_all [element]

theorem mem_receiver {func : Tree} {part : Position × Tree} (h : part ∈ receiver func) :
    ∃ value name, func.node = .attr value name ∧ part = ([0, 0], value) := by
  rcases func with ⟨span, node⟩
  cases node with
  | attr value name =>
    refine ⟨value, name, rfl, ?_⟩
    simp only [receiver, Tree.node_mk] at h
    split at h
    · exact absurd h List.not_mem_nil
    · exact List.mem_singleton.mp h
  | _ => exact absurd h List.not_mem_nil

theorem mem_indices {index : Tree} {part : Position × Tree} (h : part ∈ indices index) :
    part = ([1], index) ∨
      isGlance index = true ∧ ∃ i, index.node.toList[i]? = some part.2 ∧ part.1 = [1, i] := by
  rcases index with ⟨span, node⟩
  cases node with
  | tuple items => exact .inr ⟨rfl, mem_below.mp h⟩
  | _ => exact .inl (List.mem_singleton.mp h)

theorem mem_below_children {start : Nat} {ts : List Tree} (front : List Tree) (h : node.toList = front ++ ts)
    (hfront : front.length = start) {part : Position × Tree} (hpart : part ∈ below [] start ts) :
    ∃ i, node.toList[i]? = some part.2 ∧ part.1 = [i] := by
  obtain ⟨i, hi, hp⟩ := mem_below.mp hpart
  refine ⟨i + start, ?_, hp⟩
  rw [h, List.getElem?_append_right (by omega), ← hi]
  congr 1
  omega

/-- A part is a child of the node, or a child of one that is only looked at. -/
theorem steps_parts {part : Position × Tree} (h : part ∈ parts node) :
    (∃ i, node.toList[i]? = some part.2 ∧ part.1 = [i]) ∨
      ∃ i child j, node.toList[i]? = some child ∧ isGlance child = true ∧
        child.node.toList[j]? = some part.2 ∧ part.1 = [i, j] := by
  cases node with
  | assign target value =>
    rcases List.mem_cons.mp h with rfl | h
    · exact .inl ⟨1, rfl, rfl⟩
    · rw [mem_element h]
      exact .inl ⟨0, rfl, rfl⟩
  | forLoop target iter body =>
    rcases List.mem_cons.mp h with rfl | h
    · exact .inl ⟨1, rfl, rfl⟩
    · exact .inl (mem_below_children [target, iter] rfl rfl h)
  | call func args keywords =>
    rcases List.mem_append.mp h with h | h
    · obtain ⟨value, name, hfunc, rfl⟩ := mem_receiver h
      exact .inr ⟨0, func, 0, rfl, by rw [isGlance, hfunc], by rw [hfunc]; rfl, rfl⟩
    · exact .inl (mem_below_children [func] rfl rfl h)
  | attr value name =>
    simp only [parts] at h
    split at h
    · exact absurd h List.not_mem_nil
    · rw [List.mem_singleton.mp h]
      exact .inl ⟨0, rfl, rfl⟩
  | subscript value index =>
    rcases List.mem_cons.mp h with rfl | h
    · exact .inl ⟨0, rfl, rfl⟩
    rcases mem_indices h with rfl | ⟨hglance, j, hj, hp⟩
    · exact .inl ⟨1, rfl, rfl⟩
    · exact .inr ⟨1, index, j, rfl, hglance, hj, hp⟩
  | _ => exact .inl (mem_below_children [] rfl rfl h)

/-- Only a `for` loop binds a name around some of its parts, and it has a first part. -/
theorem parts_of_loop {node : Node Tree} {name : String} (h : binding node = .loop name) :
    ∃ iter body, parts node = ([1], iter) :: below [] 2 body := by
  cases node with
  | forLoop target iter body => exact ⟨iter, body, rfl⟩
  | assign target value =>
    rcases target with ⟨span, node⟩
    cases node <;> cases h
  | _ => cases h

theorem parts_ne_nil {part : Position × Tree} (h : part ∈ parts node) : part.1 ≠ [] := by
  rcases steps_parts h with ⟨i, -, hp⟩ | ⟨i, child, j, -, -, -, hp⟩
  all_goals
    rw [hp]
    exact List.cons_ne_nil _ _

/-- The position of a part leads to it. -/
theorem descend_parts {part : Position × Tree} (h : part ∈ parts node) :
    (Tree.mk span node).descend? part.1 = some part.2 := by
  rcases steps_parts h with ⟨i, hi, hp⟩ | ⟨i, child, j, hi, -, hj, hp⟩
  · rw [hp, Tree.descend_cons, Tree.children, Tree.node_mk, hi]
    rfl
  · rw [hp, Tree.descend_cons, Tree.children, Tree.node_mk, hi, Option.bind_some,
      Tree.descend_cons, Tree.children, hj]
    rfl

theorem height_parts {part : Position × Tree} (h : part ∈ parts node) :
    part.2.height < (Tree.mk span node).height :=
  Tree.height_descend_lt (descend_parts h) (parts_ne_nil h)

/-- What lies inside a part lies inside the tree. -/
theorem mem_descendants_parts {part : Position × Tree} (h : part ∈ parts node) {d : Tree}
    (hd : d ∈ part.2.descendants) : d ∈ (Tree.mk span node).descendants := by
  obtain ⟨path, hpath⟩ := Tree.mem_descendants.mp hd
  refine Tree.mem_descendants.mpr ⟨part.1 ++ path, ?_⟩
  rw [Tree.descend_append, descend_parts h, Option.bind_some, hpath]

/-- What holds of every tree whose parts have it holds of all trees. -/
theorem partsInduction {P : Tree → Prop}
    (step : ∀ span node, (∀ part ∈ parts node, P part.2) → P (.mk span node)) (t : Tree) : P t :=
  match t with
  | .mk span node => step span node fun part _ => partsInduction step part.2
termination_by t.height
decreasing_by exact height_parts ‹_›

/-- No part lies inside another. -/
theorem apart_parts : (parts node).Pairwise fun a b => Apart a.1 b.1 := by
  cases node with
  | assign target value =>
    refine List.pairwise_cons.mpr ⟨fun part h => ?_, ?_⟩
    · rw [mem_element h]
      exact apart_singles (by decide) [] []
    · rcases target with ⟨tspan, tnode⟩
      cases tnode <;> simp [element]
  | forLoop target iter body =>
    refine List.pairwise_cons.mpr ⟨fun part h => ?_, apart_below [] 2 body⟩
    obtain ⟨i, -, hp⟩ := mem_below.mp h
    rw [hp]
    exact apart_singles (by omega) [] []
  | call func args keywords =>
    refine List.pairwise_append.mpr ⟨?_, apart_below [] 1 _, ?_⟩
    · rcases func with ⟨fspan, fnode⟩
      cases fnode with
      | attr value name =>
        simp only [receiver, Tree.node_mk]
        split <;> simp
      | _ => exact .nil
    · intro a ha b hb
      obtain ⟨value, name, -, rfl⟩ := mem_receiver ha
      obtain ⟨i, -, hp⟩ := mem_below.mp hb
      rw [hp]
      exact apart_singles (by omega) [0] []
  | attr value name => 
    simp only [parts]
    split
    · exact .nil
    · exact List.pairwise_singleton ..
  | subscript value index => 
    refine List.pairwise_cons.mpr ⟨fun part h => ?_, ?_⟩
    · rcases mem_indices h with rfl | ⟨-, i, -, hp⟩
      · exact apart_singles (by decide) [] []
      · rw [hp]
        exact apart_singles (by decide) [] [i]
    · rcases index with ⟨ispan, inode⟩
      cases inode with
      | tuple items => exact apart_below [1] 0 items
      | _ => exact List.pairwise_singleton ..
  | _ => exact apart_below [] 0 _

theorem mem_below_child {start i : Nat} {ts : List Tree} {t : Tree} (front : List Tree)
    (h : node.toList = front ++ ts) (hfront : front.length = start) (hi : start ≤ i)
    (ht : node.toList[i]? = some t) : ([i], t) ∈ below [] start ts := by
  refine mem_below.mpr ⟨i - start, ?_, ?_⟩
  · rw [← ht, h, List.getElem?_append_right (by omega), hfront]
  · simp only [List.nil_append, List.cons.injEq, and_true]
    omega

/-- Nothing lies below a name. -/
theorem isGlance_of_ident {t d : Tree} {path : Position} {id : String} (ht : t.node = .ident id)
    (h : t.descend? path = some d) : isGlance d = true := by
  rcases path with _ | ⟨i, rest⟩
  · simp only [Tree.descend?, Option.some.injEq] at h
    rw [← h, isGlance, ht]
  · rw [Tree.descend_cons, Tree.children, ht] at h
    cases h

theorem ident_of_isModuleAlias {t : Tree} (h : isModuleAlias t.node = true) :
    ∃ id, t.node = .ident id := by
  rcases t with ⟨span, node⟩
  cases node with
  | ident id => exact ⟨id, rfl⟩
  | _ => cases h

/-- What lies below a node that is not refused lies inside one of its parts or is only looked
    at. -/
theorem reach_parts (hrefuses : refuses node = false) (hdeclines : declines node = false)
    {path : Position} (hne : path ≠ []) {d : Tree}
    (h : (Tree.mk span node).descend? path = some d) :
    (∃ part ∈ parts node, ∃ rest, path = part.1 ++ rest ∧ part.2.descend? rest = some d) ∨
      isGlance d = true := by
  rcases path with _ | ⟨i, rest⟩
  · exact absurd rfl hne
  rw [Tree.descend_cons, Option.bind_eq_some_iff] at h
  obtain ⟨child, hchild, hd⟩ := h
  simp only [Tree.children, Tree.node_mk] at hchild
  -- A child that is rendered itself leads to everything inside it.
  have hpart : ([i], child) ∈ parts node →
      (∃ part ∈ parts node, ∃ q, i :: rest = part.1 ++ q ∧ part.2.descend? q = some d) ∨
        isGlance d = true :=
    fun hmem => .inl ⟨([i], child), hmem, rest, rfl, hd⟩
  cases node with
  | assign target value =>
    rcases i with _ | _ | i
    · obtain rfl : target = child := Option.some.inj hchild
      rcases target with ⟨tspan, tnode⟩
      cases tnode with
      | ident id => exact .inr (isGlance_of_ident rfl hd)
      | subscript _ _ => exact hpart (List.mem_cons_of_mem _ (List.mem_singleton.mpr rfl))
      | _ => cases hdeclines
    · obtain rfl : value = child := Option.some.inj hchild
      exact hpart List.mem_cons_self
    · cases hchild
  | forLoop target iter body =>
    rcases i with _ | _ | i
    · obtain rfl : target = child := Option.some.inj hchild
      rcases target with ⟨tspan, tnode⟩
      cases tnode with
      | ident id => exact .inr (isGlance_of_ident rfl hd)
      | _ => cases hrefuses
    · obtain rfl : iter = child := Option.some.inj hchild
      exact hpart List.mem_cons_self
    · exact hpart (List.mem_cons_of_mem _
        (mem_below_child [target, iter] rfl rfl (by omega) hchild))
  | call func args keywords =>
    rcases i with _ | i
    · obtain rfl : func = child := Option.some.inj hchild
      rcases func with ⟨fspan, fnode⟩
      cases fnode with
      | ident id => exact .inr (isGlance_of_ident rfl hd)
      | attr value name =>
        rcases rest with _ | ⟨j, rest⟩
        · obtain rfl := Option.some.inj hd
          exact .inr rfl
        rw [Tree.descend_cons, Option.bind_eq_some_iff] at hd
        obtain ⟨object, hobject, hd⟩ := hd
        rcases j with _ | j
        · obtain rfl : value = object := Option.some.inj hobject
          rcases halias : isModuleAlias value.node with _ | _
          · have hreceiver : ([0, 0], value) ∈ receiver (.mk fspan (.attr value name)) := by
              simp only [receiver, Tree.node_mk, halias, Bool.false_eq_true, if_false,
                List.mem_singleton]
            exact .inl ⟨_, List.mem_append_left _ hreceiver, rest, rfl, hd⟩
          · obtain ⟨id, hid⟩ := ident_of_isModuleAlias halias
            exact .inr (isGlance_of_ident hid hd)
        · cases hobject
      | _ => cases hrefuses
    · exact hpart (List.mem_append_right _
        (mem_below_child [func] rfl rfl (by omega) hchild))
  | attr value name =>
    rcases i with _ | i
    · obtain rfl : value = child := Option.some.inj hchild
      rcases halias : isModuleAlias value.node with _ | _
      · refine hpart ?_
        simp only [parts, halias, Bool.false_eq_true, if_false, List.mem_singleton]
      · obtain ⟨id, hid⟩ := ident_of_isModuleAlias halias
        exact .inr (isGlance_of_ident hid hd)
    · cases hchild
  | subscript value index =>
    rcases i with _ | _ | i
    · obtain rfl : value = child := Option.some.inj hchild
      exact hpart List.mem_cons_self
    · obtain rfl : index = child := Option.some.inj hchild
      rcases index with ⟨ispan, inode⟩
      cases inode with
      | tuple items =>
        rcases rest with _ | ⟨j, rest⟩
        · obtain rfl := Option.some.inj hd
          exact .inr rfl
        rw [Tree.descend_cons, Option.bind_eq_some_iff] at hd
        obtain ⟨item, hitem, hd⟩ := hd
        have hindex : ([1, j], item) ∈ indices (.mk ispan (.tuple items)) :=
          mem_below.mpr ⟨j, hitem, rfl⟩
        exact .inl ⟨_, List.mem_cons_of_mem _ hindex, rest, rfl, hd⟩
      | _ => exact hpart (List.mem_cons_of_mem _ (List.mem_singleton.mpr rfl))
    · cases hchild
  | _ => exact hpart (mem_below_child [] rfl rfl (Nat.zero_le _) hchild)

end Parts

end Physl

end Rendition
