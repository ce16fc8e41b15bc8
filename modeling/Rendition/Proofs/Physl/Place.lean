import Rendition.Proofs.Physl.Assigned

/-!
# Places in a function

At each tree on the way down from the root some names are known to the function that the tree stands
in: its parameters, the variables of the loops around the tree, and what was defined by the trees
that were rendered before. This module reads the known names off the way down, without rendering
anything.

## Main definitions

* `Physl.Place`: A place in a function, given by what makes names known there.
* `Physl.Place.known`: The names that are known at a place.
* `Physl.Place.top`: The place of a tree on its own.
* `Physl.Place.enter`, `Physl.Place.descend`: The place of a child, and of any tree further down.
* `Physl.Place.Outside`: Whether a function begins neither at a position nor below it.

## Theorems

* `descend_append`: The way down in two steps.
* `known_parts`: A part knows what its node knows, and what the parts before it define.
* `owner_descend`: The way down enters functions, and leaves none.
* `known_descend`: Within a function more and more names are known.
-/

namespace Rendition.Physl

/-- A place in a function. -/
structure Place where
  /-- The position of the function; there is none for the module. -/
  owner : Option Position
  /-- The parameters of the function. -/
  params : List String
  /-- The variables of the loops around the place. -/
  loops : List String
  /-- The trees of the function that are rendered before the place is reached. -/
  before : List Tree

namespace Place

/-- The names that are known at a place. -/
def known (place : Place) : Finset String :=
  place.params.toFinset ∪ place.loops.toFinset ∪ assignedAll place.before

/-- The place of a tree on its own, where some names are known from before. In a fresh module there
    are none. -/
def top (names : List String) : Place :=
  ⟨none, names, [], []⟩

theorem known_top (names : List String) : (top names).known = names.toFinset := by
  simp [known, top]

/-- The variable of a loop, which its body knows. -/
def loopVariable (node : Node Tree) (i : Nat) : List String :=
  match binding node with
  | .loop name => if 2 ≤ i then [name] else []
  | _ => []

/-- The place of a child, from the place and the position of the tree above it. -/
def enter (place : Place) (path : Position) (node : Node Tree) (i : Nat) : Place :=
  match node with
  | .functionDef _ params body => ⟨some path, params, [], body.take i⟩
  | .lambda params _ => ⟨some path, params, [], []⟩
  | .assign _ value =>
    -- What is assigned is rendered before the element that it is assigned to.
    { place with before := place.before ++ if i = 0 then [value] else [] }
  | node => ⟨place.owner, place.params, loopVariable node i ++ place.loops,
      place.before ++ node.toList.take i⟩

/-- The place of a tree further down. -/
def descend (place : Place) (path : Position) (t : Tree) : Position → Place
  | [] => place
  | i :: rest => match t.children[i]? with
    | none => place
    | some child => (place.enter path t.node i).descend (path ++ [i]) child rest

theorem descend_append (q : Position) : ∀ (p : Position) {place : Place} {path : Position}
    {t u : Tree}, t.descend? p = some u →
      place.descend path t (p ++ q) = (place.descend path t p).descend (path ++ p) u q := by
  intro p
  induction p with
  | nil =>
    intro place path t u h
    obtain rfl := Option.some.inj h
    rw [List.nil_append, List.append_nil, descend]
  | cons i rest ih =>
    intro place path t u h
    rw [Tree.descend_cons, Option.bind_eq_some_iff] at h
    obtain ⟨child, hchild, hu⟩ := h
    rw [List.cons_append, descend, descend, hchild]
    simp only
    rw [ih hu, List.append_assoc, List.singleton_append]

theorem descend_single {place : Place} {path : Position} {span : Span} {node : Node Tree} {i : Nat}
    (child : Tree) (h : node.toList[i]? = some child) :
    place.descend path (.mk span node) [i] = place.enter path node i := by
  rw [descend, Tree.children, Tree.node_mk, h]
  rfl

theorem descend_pair {place : Place} {path : Position} {span : Span} {i j : Nat}
    (node : Node Tree) (child t : Tree) (h : node.toList[i]? = some child)
    (ht : child.node.toList[j]? = some t) :
    place.descend path (.mk span node) [i, j] =
      (place.enter path node i).enter (path ++ [i]) child.node j := by
  rcases child with ⟨cspan, cnode⟩
  rw [descend, Tree.children, Tree.node_mk, h]
  exact descend_single t ht

/-- The names that are known where the parts of a node begin: the first part of a loop does not
    know its variable. -/
def base (place : Place) (node : Node Tree) (j : Nat) : Finset String :=
  match binding node with
  | .function _ params | .lambda params => params.toFinset
  | .loop name => if j = 0 then place.known else insert name place.known
  | .none | .name _ => place.known

theorem getElem_below_iff {rel : Position} {start : Nat} {ts : List Tree} {j : Nat}
    {part : Position × Tree} : (below rel start ts)[j]? = some part ↔
      ts[j]? = some part.2 ∧ part.1 = rel ++ [j + start] := by
  rw [getElem_below, Option.map_eq_some_iff]
  constructor
  · rintro ⟨t, ht, rfl⟩
    exact ⟨ht, rfl⟩
  · rintro ⟨ht, hp⟩
    exact ⟨part.2, ht, by rw [← hp]⟩

/-- A part knows what is known where the parts begin, and what the parts before it define. -/
theorem known_parts (place : Place) (path : Position) (span : Span) {node : Node Tree}
    (hrefuses : refuses node = false) {j : Nat} {part : Position × Tree}
    (h : (parts node)[j]? = some part) :
    (place.descend path (.mk span node) part.1).known =
      place.base node j ∪ assignedAll (((parts node).take j).map Prod.snd) := by
  -- A child at the same number in the list of children and in the list of parts.
  have hchild : ∀ (start : Nat) (front ts : List Tree), node.toList = front ++ ts →
      front.length = start → ∀ {k : Nat}, (below [] start ts)[k]? = some part →
        place.descend path (.mk span node) part.1 = place.enter path node (k + start) := by
    intro start front ts hts hfront k hk
    obtain ⟨ht, hp⟩ := getElem_below_iff.mp hk
    rw [hp]
    refine descend_single part.2 ?_
    rw [hts, List.getElem?_append_right (by omega), ← ht]
    congr 1
    omega
  cases node with
  | functionDef name params body =>
    rw [hchild 0 [] _ rfl rfl h]
    simp [parts, map_snd_below, enter, known, base, binding, Node.toList]
  | lambda params body =>
    rw [hchild 0 [] _ rfl rfl h]
    obtain ⟨ht, -⟩ := getElem_below_iff.mp h
    rcases j with _ | j
    · simp [enter, known, base, binding]
    · cases ht
  | assign target value =>
    have hbase : place.base (.assign target value) j = place.known := by
      rcases target with ⟨tspan, tnode⟩
      cases tnode <;> rfl
    rw [hbase]
    rcases j with _ | j
    · obtain rfl := Option.some.inj h
      rw [descend_single value rfl]
      simp [enter, known]
    · rw [parts, List.getElem?_cons_succ] at h
      rcases target with ⟨tspan, tnode⟩
      cases tnode with
      | subscript a b =>
        rcases j with _ | j
        · obtain rfl := Option.some.inj h
          rw [descend_single (.mk tspan (.subscript a b)) rfl]
          simp [enter, known, parts, element, assignedAll_append]
        · cases h
      | _ => cases h
  | forLoop target iter body =>
    rcases target with ⟨tspan, tnode⟩
    cases tnode with
    | ident id =>
      rcases j with _ | j
      · obtain rfl := Option.some.inj h
        rw [descend_single iter rfl]
        simp [enter, known, base, binding, loopVariable, Node.toList, assignedAll_append,
          assigned_ident]
      · rw [hchild 2 [_, _] _ rfl rfl (List.getElem?_cons_succ ▸ h)]
        simp [enter, known, base, binding, loopVariable, Node.toList, parts, map_snd_below,
          assignedAll_append, assigned_ident]
    | _ => cases hrefuses
  | call func args keywords =>
    rcases func with ⟨fspan, fnode⟩
    cases fnode with
    | ident id =>
      rw [hchild 1 [_] _ rfl rfl h]
      simp [enter, known, base, binding, loopVariable, Node.toList, parts, receiver, map_snd_below,
        assignedAll_append, assigned_ident]
    | attr value name =>
      have hfunc : assigned (.mk fspan (.attr value name)) = assigned value ∪ ∅ := assigned_mk ..
      rcases halias : isModuleAlias value.node with _ | _
      · simp only [parts, receiver, Tree.node_mk, halias, Bool.false_eq_true, if_false] at h
        rcases j with _ | j
        · obtain rfl := Option.some.inj h
          rw [descend_pair (.call (.mk fspan (.attr value name)) args keywords) _ value rfl rfl]
          simp [enter, known, base, binding, loopVariable]
        · rw [hchild 1 [_] _ rfl rfl h]
          simp [enter, known, base, binding, loopVariable, Node.toList, parts, receiver,
            map_snd_below, assignedAll_append, hfunc, halias]
      · obtain ⟨id, hid⟩ := ident_of_isModuleAlias halias
        simp only [parts, receiver, Tree.node_mk, halias, if_true, List.nil_append] at h
        rw [hchild 1 [_] _ rfl rfl h]
        simp [enter, known, base, binding, loopVariable, Node.toList, parts, receiver,
          map_snd_below, assignedAll_append, hfunc, halias, assigned_ident hid]
    | _ => cases hrefuses
  | attr value name =>
    simp only [parts] at h
    split at h
    · cases h
    · rcases j with _ | j
      · obtain rfl := Option.some.inj h
        rw [descend_single value rfl]
        simp [enter, known, base, binding, loopVariable]
      · cases h
  | subscript value index =>
    rcases j with _ | j
    · obtain rfl := Option.some.inj h
      rw [descend_single value rfl]
      simp [enter, known, base, binding, loopVariable]
    · rw [parts, List.getElem?_cons_succ] at h
      rcases index with ⟨ispan, inode⟩
      cases inode with
      | tuple items =>
        obtain ⟨ht, hp⟩ := getElem_below_iff.mp h
        rw [hp, List.singleton_append, Nat.add_zero,
          descend_pair (.subscript value (.mk ispan (.tuple items))) _ part.2 rfl ht]
        simp [enter, known, base, binding, loopVariable, Node.toList, parts, indices, map_snd_below,
          assignedAll_append]
      | _ =>
        rcases j with _ | j
        · obtain rfl := Option.some.inj h
          rw [descend_single (.mk ispan _) rfl]
          simp [enter, known, base, binding, loopVariable, Node.toList, parts, indices,
            assignedAll_append]
        · cases h
  | _ =>
    rw [hchild 0 [] _ rfl rfl h]
    simp [parts, map_snd_below, enter, known, base, binding, loopVariable, Node.toList,
      assignedAll_append]

/-- What a part defines is known to the parts after it. -/
theorem known_later (place : Place) (path : Position) (span : Span) {node : Node Tree}
    (hrefuses : refuses node = false) : (parts node).Pairwise fun p q =>
      assigned p.2 ⊆ (place.descend path (.mk span node) q.1).known := by
  rw [List.pairwise_iff_getElem]
  intro i j hi hj hij
  rw [known_parts place path span hrefuses (List.getElem?_eq_getElem hj)]
  intro name hname
  refine Finset.mem_union_right _ (mem_assignedAll.mpr ⟨_, ?_, hname⟩)
  refine List.mem_map_of_mem (List.mem_iff_getElem.mpr ⟨i, ?_, List.getElem_take ..⟩)
  rw [List.length_take]
  omega

theorem owner_enter (place : Place) (path : Position) (node : Node Tree) (i : Nat) :
    (place.enter path node i).owner = place.owner ∨
      (place.enter path node i).owner = some path := by
  cases node with
  | functionDef name params body => exact .inr rfl
  | lambda params body => exact .inr rfl
  | _ => exact .inl rfl

/-- On the way down one stays in the function or enters others, which begin on the way. -/
theorem owner_descend (rest : Position) : ∀ (place : Place) (path : Position) (t : Tree),
    (place.descend path t rest).owner = place.owner ∨
      ∃ r, (place.descend path t rest).owner = some (path ++ r) := by
  induction rest with
  | nil => exact fun place path t => .inl rfl
  | cons i rest ih =>
    intro place path t
    rw [descend]
    rcases t.children[i]? with _ | child
    · exact .inl rfl
    simp only
    rcases ih (place.enter path t.node i) (path ++ [i]) child with h | ⟨r, h⟩
    · rcases owner_enter place path t.node i with howner | howner
      · exact .inl (h.trans howner)
      · exact .inr ⟨[], by rw [h, howner, List.append_nil]⟩
    · exact .inr ⟨[i] ++ r, by rw [h, List.append_assoc]⟩

/-- The function does not begin at the position or below it. -/
def Outside (owner : Option Position) (path : Position) : Prop :=
  ∀ r, owner ≠ some (path ++ r)

theorem Outside.append {owner : Option Position} {path : Position} (h : Outside owner path)
    (p : Position) : Outside owner (path ++ p) := by
  intro r
  rw [List.append_assoc]
  exact h (p ++ r)

theorem known_enter {place : Place} {path : Position} {node : Node Tree} {i : Nat}
    (h : (place.enter path node i).owner ≠ some path) :
    place.known ⊆ (place.enter path node i).known := by
  intro name hname
  simp only [known, Finset.mem_union] at hname
  cases node with
  | functionDef name params body => exact absurd rfl h
  | lambda params body => exact absurd rfl h
  | _ =>
    simp only [enter, known, assignedAll_append, List.toFinset_append, Finset.mem_union]
    tauto

/-- Within a function more and more names are known. -/
theorem known_descend (rest : Position) : ∀ {place : Place} {path : Position} {t : Tree},
    Outside place.owner path → (place.descend path t rest).owner = place.owner →
      place.known ⊆ (place.descend path t rest).known := by
  induction rest with
  | nil => exact fun _ _ => Finset.Subset.refl _
  | cons i rest ih =>
    intro place path t hout howner
    rw [descend] at howner ⊢
    rcases hchild : t.children[i]? with _ | child
    · exact Finset.Subset.refl _
    simp only [hchild] at howner ⊢
    -- A function that is entered is not left again.
    have hstay : (place.enter path t.node i).owner ≠ some path := by
      intro hentered
      rcases owner_descend rest (place.enter path t.node i) (path ++ [i]) child with h | ⟨r, h⟩
      · refine hout [] ?_
        rw [← howner, h, hentered, List.append_nil]
      · refine hout ([i] ++ r) ?_
        rw [← howner, h, List.append_assoc]
    have hsame : (place.enter path t.node i).owner = place.owner :=
      (owner_enter place path t.node i).resolve_right hstay
    refine Finset.Subset.trans (known_enter hstay) (ih ?_ ?_)
    · rw [hsame]
      exact hout.append [i]
    · rw [hsame, howner]

/-- The function that the parts of a node belong to. -/
def ownerBelow (place : Place) (path : Position) (node : Node Tree) : Option Position :=
  match binding node with
  | .function .. | .lambda _ => some path
  | _ => place.owner

theorem ownerBelow_eq (place : Place) (path : Position) (node : Node Tree) (i : Nat) :
    (place.enter path node i).owner = place.ownerBelow path node := by
  cases node with
  | assign target value =>
    rcases target with ⟨span, node⟩
    cases node <;> rfl
  | forLoop target iter body =>
    rcases target with ⟨span, node⟩
    cases node <;> rfl
  | _ => rfl

theorem owner_parts {place : Place} {path : Position} {span : Span} {node : Node Tree}
    {part : Position × Tree} (h : part ∈ parts node) :
    (place.descend path (.mk span node) part.1).owner = place.ownerBelow path node := by
  rcases steps_parts h with ⟨i, hi, hp⟩ | ⟨i, child, j, hi, hglance, hj, hp⟩
  · rw [hp, descend_single part.2 hi, ownerBelow_eq]
  · rw [hp, descend_pair node child part.2 hi hj, ownerBelow_eq, ← ownerBelow_eq place path node i]
    rcases child with ⟨cspan, cnode⟩
    cases cnode with
    | ident id => rfl
    | attr value name => rfl
    | tuple items => rfl
    | _ => cases hglance

theorem outside_parts {place : Place} {path : Position} {node : Node Tree}
    (hout : Outside place.owner path) {part : Position × Tree} (h : part ∈ parts node) :
    Outside (place.ownerBelow path node) (path ++ part.1) := by
  have hself : Outside (some path) (path ++ part.1) := by
    intro r heq
    rw [Option.some.injEq, List.append_assoc] at heq
    have hnil := List.append_eq_nil_iff.mp (List.append_right_eq_self.mp heq.symm)
    exact parts_ne_nil h hnil.1
  rw [ownerBelow]
  split
  · exact hself
  · exact hself
  · exact hout.append part.1

end Place

end Rendition.Physl
