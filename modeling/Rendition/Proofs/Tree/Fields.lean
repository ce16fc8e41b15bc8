import Mathlib.Data.List.Nodup
import Mathlib.Data.List.Range
import Mathlib.Data.List.Sigma
import Rendition.Proofs.Tree.Position

/-!
# The fields of a node

The list of the children of a node says in which order they come, but not where they stand. Here a
node is taken as a record with fields, each of which holds a list of children: one, none or one
where the child may be missing, or as many as there are. A child is found under its field and its
number in the field, its slot, and whatever is inside a tree is found by a route through slots.

## Main definitions

* `Field`: The fields of nodes that hold children.
* `Node.fields`: The fields of a node, each with the children in it.
* `Node.held`: The children in one field.
* `Node.slots`: The children, each with its slot.
* `Tree.reach?`: The tree at the end of a route through slots.
* `Tree.routes`: The routes to all that is inside a tree, in the order of the descendants.

## Theorems

* `Node.map_eq_map_iff`: What stands in the fields is all that a node holds.
* `Node.map_snd_slots`, `Node.nodup_slots`, `Node.mem_slots`: Each child has one slot.
* `Tree.map_reach_routes`, `Tree.nodup_routes`, `Tree.mem_routes`: Each descendant has one route.
-/

namespace Rendition

variable {α β : Type}

/-- The fields of nodes that hold children. The parts of a clause, an item, a keyword argument or
    an entry are told by its number. -/
inductive Field where
  | body | orelse | finalbody
  | test | target | iter | value | exception
  | bases | left | right | operand | comparators | values
  | func | args | index | lower | upper | step | items
  /-- What the clause of that number catches. -/
  | caught (clause : Nat)
  /-- The suite of the clause of that number. -/
  | handling (clause : Nat)
  /-- What the item of that number of a `with` statement enters. -/
  | context (item : Nat)
  /-- The value of the keyword argument of that number. -/
  | keyword (argument : Nat)
  | key (entry : Nat)
  | entryValue (entry : Nat)
  deriving DecidableEq

/-- A child in a node: its field, and its number among the children in the field. -/
abbrev Slot := Field × Nat

/-- The fields of a clause of that number. -/
def Handler.fields (clause : Nat) (h : Handler α) : List (Field × List α) :=
  [(.caught clause, h.exception.toList), (.handling clause, h.body)]

/-- The field of an item of that number. -/
def WithItem.fields (number : Nat) (item : WithItem α) : List (Field × List α) :=
  [(.context number, [item.context])]

/-- The field of a keyword argument of that number. -/
def Keyword.fields (argument : Nat) (keyword : Keyword α) : List (Field × List α) :=
  [(.keyword argument, [keyword.value])]

/-- The fields of an entry of that number. -/
def entryFields (number : Nat) (entry : α × α) : List (Field × List α) :=
  [(.key number, [entry.1]), (.entryValue number, [entry.2])]

section Numbered

variable {γ δ : Type}

/-- The fields of the records in a list, each record being told by its number. -/
def numbered (parts : Nat → γ → List (Field × List α)) (records : List γ) :
    List (Field × List α) :=
  records.zipIdx.flatMap fun p => parts p.2 p.1

variable (parts : Nat → γ → List (Field × List α))

/-- The children in the fields of records are those of the first record, then of the second. -/
theorem flatMap_numbered (children : γ → List α)
    (h : ∀ i record, (parts i record).flatMap Prod.snd = children record) (records : List γ) :
    (numbered parts records).flatMap Prod.snd = records.flatMap children := by
  have hfst : records.flatMap children = records.zipIdx.flatMap fun p => children p.1 := by
    conv => lhs; rw [← List.zipIdx_map_fst 0 records, List.flatMap_map]
  simp only [numbered, List.flatMap_assoc, h, hfst]

/-- Records have different fields if each has, and if a field tells the number of its record. -/
theorem nodup_numbered (h : ∀ i record, ((parts i record).map Prod.fst).Nodup)
    (htold : ∀ i j record record' field, field ∈ (parts i record).map Prod.fst →
      field ∈ (parts j record').map Prod.fst → i = j) (records : List γ) :
    ((numbered parts records).map Prod.fst).Nodup := by
  rw [numbered, List.map_flatMap, List.nodup_flatMap]
  refine ⟨fun p _ => h p.2 p.1, ?_⟩
  refine (List.pairwise_map.mp (List.nodup_zipIdx_map_snd records)).imp fun {p q} hne => ?_
  exact fun field hp hq => hne (htold p.2 q.2 p.1 q.1 field hp hq)

/-- A field that no record has is not among those of the records. -/
theorem not_mem_numbered (field : Field) (h : ∀ i record, field ∉ (parts i record).map Prod.fst)
    (records : List γ) : field ∉ (numbered parts records).map Prod.fst := by
  intro hmem
  rw [numbered, List.map_flatMap] at hmem
  obtain ⟨p, -, hp⟩ := List.mem_flatMap.mp hmem
  exact h p.2 p.1 hp

/-- Other children in the records are other children in their fields. -/
theorem numbered_map (parts' : Nat → δ → List (Field × List β)) (f : α → β) (g : γ → δ)
    (h : ∀ i record, parts' i (g record) = (parts i record).map fun p => (p.1, p.2.map f))
    (records : List γ) : numbered parts' (records.map g) =
      (numbered parts records).map fun p => (p.1, p.2.map f) := by
  simp only [numbered, List.zipIdx_map, List.flatMap_map, List.map_flatMap, Prod.map_fst,
    Prod.map_snd, id, h]

end Numbered

namespace Node

variable {node : Node α} {field : Field}

/-- The fields of a node, each with the children in it. -/
def fields : Node α → List (Field × List α)
  | moduleDef body => [(.body, body)]
  | functionDef _ _ body => [(.body, body)]
  | returnStmt value => [(.value, value.toList)]
  | assign target value => [(.target, [target]), (.value, [value])]
  | augAssign target _ value => [(.target, [target]), (.value, [value])]
  | exprStmt value => [(.value, [value])]
  | ifStmt test body orelse => [(.test, [test]), (.body, body), (.orelse, orelse)]
  | whileLoop test body => [(.test, [test]), (.body, body)]
  | forLoop target iter body => [(.target, [target]), (.iter, [iter]), (.body, body)]
  | passStmt | breakStmt | continueStmt => []
  | tryStmt body handlers finalbody =>
    (.body, body) :: numbered Handler.fields handlers ++ [(.finalbody, finalbody)]
  | withStmt items body => numbered WithItem.fields items ++ [(.body, body)]
  | raiseStmt exception => [(.exception, exception.toList)]
  | classDef _ bases body => [(.bases, bases), (.body, body)]
  | importStmt _ _ | ident _ | constant _ => []
  | binOp left _ right => [(.left, [left]), (.right, [right])]
  | unaryOp _ operand => [(.operand, [operand])]
  | compare left _ comparators => [(.left, [left]), (.comparators, comparators)]
  | boolOp _ values => [(.values, values)]
  | call func args keywords =>
    (.func, [func]) :: (.args, args) :: numbered Keyword.fields keywords
  | attr value _ => [(.value, [value])]
  | subscript value index => [(.value, [value]), (.index, [index])]
  | slice lower upper step =>
    [(.lower, lower.toList), (.upper, upper.toList), (.step, step.toList)]
  | list items => [(.items, items)]
  | tuple items => [(.items, items)]
  | dict entries => numbered entryFields entries
  | ifExp test body orelse => [(.test, [test]), (.body, [body]), (.orelse, [orelse])]
  | lambda _ body => [(.body, [body])]

/-- The children in a field of a node. A field that the node does not have holds none. -/
def held (node : Node α) (field : Field) : List α :=
  (node.fields.lookup field).getD []

/-- Field by field, the children come in the order of the list of children. -/
theorem flatMap_fields (node : Node α) : node.fields.flatMap Prod.snd = node.toList := by
  -- Four kinds of nodes hold records; the others hold their children directly.
  cases node with
  | tryStmt body handlers finalbody =>
    have hclauses := flatMap_numbered Handler.fields Handler.toList
      (fun i clause => by simp [Handler.fields, Handler.toList]) handlers
    simp [fields, toList, hclauses]
  | withStmt items body =>
    have hitems := flatMap_numbered WithItem.fields (fun item => [item.context]) (fun _ _ => rfl)
      items
    simp [fields, toList, hitems, List.map_eq_flatMap]
  | call func args keywords =>
    have hkeywords := flatMap_numbered Keyword.fields (fun keyword => [keyword.value])
      (fun _ _ => rfl) keywords
    simp [fields, toList, hkeywords, List.map_eq_flatMap]
  | dict entries =>
    exact flatMap_numbered entryFields (fun entry => [entry.1, entry.2]) (fun _ _ => rfl) entries
  | _ => simp [fields, toList]

/-- No field is listed twice. -/
theorem nodup_fields (node : Node α) : (node.fields.map Prod.fst).Nodup := by
  -- The fields of records are told apart by their numbers, and are not the fields beside them.
  cases node with
  | tryStmt body handlers finalbody =>
    have hclauses := nodup_numbered Handler.fields (fun _ _ => by simp [Handler.fields])
      (by grind [Handler.fields]) handlers
    have hbody := not_mem_numbered Handler.fields .body
      (fun _ _ => by simp [Handler.fields]) handlers
    have hfinal := not_mem_numbered Handler.fields .finalbody
      (fun _ _ => by simp [Handler.fields]) handlers
    rw [fields, List.map_append, List.map_cons]
    refine List.nodup_append'.mpr
      ⟨List.nodup_cons.mpr ⟨hbody, hclauses⟩, List.nodup_singleton _, ?_⟩
    rw [List.map_singleton, List.disjoint_singleton, List.mem_cons, not_or]
    exact ⟨Field.noConfusion, hfinal⟩
  | withStmt items body =>
    have hitems := nodup_numbered WithItem.fields (fun _ _ => List.nodup_singleton _)
      (by grind [WithItem.fields]) items
    have hbody := not_mem_numbered WithItem.fields .body
      (fun _ _ => by simp [WithItem.fields]) items
    rw [fields, List.map_append]
    exact List.nodup_append'.mpr
      ⟨hitems, List.nodup_singleton _, List.disjoint_singleton.mpr hbody⟩
  | call func args keywords =>
    have hkeywords := nodup_numbered Keyword.fields (fun _ _ => List.nodup_singleton _)
      (by grind [Keyword.fields]) keywords
    have hargs := not_mem_numbered Keyword.fields .args
      (fun _ _ => by simp [Keyword.fields]) keywords
    have hfunc := not_mem_numbered Keyword.fields .func
      (fun _ _ => by simp [Keyword.fields]) keywords
    rw [fields, List.map_cons, List.map_cons, List.nodup_cons, List.nodup_cons, List.mem_cons,
      not_or]
    exact ⟨⟨Field.noConfusion, hfunc⟩, hargs, hkeywords⟩
  | dict entries =>
    exact nodup_numbered entryFields (fun _ _ => by simp [entryFields])
      (by grind [entryFields]) entries
  | _ => simp [fields]

/-- Other children in a node are other children in its fields. -/
theorem fields_map (f : α → β) (node : Node α) :
    (node.map f).fields = node.fields.map fun p => (p.1, p.2.map f) := by
  have hclauses := numbered_map Handler.fields Handler.fields f (Handler.map f) fun _ _ => by
    simp only [Handler.fields, Handler.map, Option.toList_map, List.map_cons, List.map_nil]
  have hitems := numbered_map WithItem.fields WithItem.fields f (WithItem.map f) fun _ _ => rfl
  have hkeywords := numbered_map Keyword.fields Keyword.fields f (Keyword.map f) fun _ _ => rfl
  have hentries := numbered_map entryFields entryFields f (fun entry => (f entry.1, f entry.2))
    fun _ _ => rfl
  cases node <;> simp [map, fields, Option.toList_map, hclauses, hitems, hkeywords, hentries]

theorem lookup_fields {children : List α} :
    node.fields.lookup field = some children ↔ (field, children) ∈ node.fields := by
  constructor
  · intro h
    obtain ⟨before, after, hsplit, -⟩ := List.lookup_eq_some_iff.mp h
    rw [hsplit]
    exact List.mem_append_right before List.mem_cons_self
  · intro h
    obtain ⟨found, hfound⟩ := Option.isSome_iff_exists.mp
      (List.lookup_isSome_iff.mpr ⟨_, h, beq_self_eq_true field⟩)
    obtain ⟨before, after, hsplit, -⟩ := List.lookup_eq_some_iff.mp hfound
    have hmem : (field, found) ∈ node.fields := by
      rw [hsplit]
      exact List.mem_append_right before List.mem_cons_self
    -- A field is listed once, so what is found under its name is what was listed.
    have hsame := List.inj_on_of_nodup_map (nodup_fields node) hmem h rfl
    rw [hfound, (Prod.mk.inj hsame).2]

/-- The children of a node, each with its slot. -/
def slots (node : Node α) : List (Slot × α) :=
  node.fields.flatMap fun p => p.2.zipIdx.map fun child => ((p.1, child.2), child.1)

/-- The children with slots are the children in their order. -/
theorem map_snd_slots (node : Node α) : node.slots.map Prod.snd = node.toList := by
  simp only [slots, List.map_flatMap, List.map_map, Function.comp_def]
  rw [← flatMap_fields]
  exact List.flatMap_congr fun p _ => List.zipIdx_map_fst 0 p.2

/-- No slot holds two children. -/
theorem nodup_slots (node : Node α) : (node.slots.map Prod.fst).Nodup := by
  simp only [slots, List.map_flatMap, List.map_map, Function.comp_def]
  rw [List.nodup_flatMap]
  constructor
  · intro p _
    have hinjective : Function.Injective fun i : Nat => (p.1, i) := fun _ _ h => (Prod.mk.inj h).2
    have hnumbers := (List.nodup_zipIdx_map_snd p.2).map hinjective
    rwa [List.map_map] at hnumbers
  · -- Slots of different fields differ in the field.
    refine (List.pairwise_map.mp (nodup_fields node)).imp fun {p q} hne slot hp hq => hne ?_
    obtain ⟨child, -, rfl⟩ := List.mem_map.mp hp
    obtain ⟨other, -, hother⟩ := List.mem_map.mp hq
    exact (Prod.mk.inj hother).1.symm

/-- A child has a slot if it stands there. -/
theorem mem_slots {i : Nat} {a : α} :
    ((field, i), a) ∈ node.slots ↔ (node.held field)[i]? = some a := by
  have hslots : ((field, i), a) ∈ node.slots ↔
      ∃ children, (field, children) ∈ node.fields ∧ children[i]? = some a := by
    simp only [slots, List.mem_flatMap, List.mem_map, Prod.exists, Prod.mk.injEq,
      List.mem_zipIdx_iff_getElem?]
    constructor
    · rintro ⟨field, children, hmem, a, i, hchild, ⟨rfl, rfl⟩, rfl⟩
      exact ⟨children, hmem, hchild⟩
    · rintro ⟨children, hmem, hchild⟩
      exact ⟨field, children, hmem, a, i, hchild, ⟨rfl, rfl⟩, rfl⟩
  rw [hslots, held]
  rcases hlookup : node.fields.lookup field with _ | children
  · simp only [← lookup_fields, hlookup, Option.getD_none, List.getElem?_nil, reduceCtorEq,
      false_and, exists_false]
  · simp only [← lookup_fields, hlookup, Option.getD_some, Option.some.injEq, exists_eq_left']

theorem slots_map (f : α → β) (node : Node α) :
    (node.map f).slots = node.slots.map fun s => (s.1, f s.2) := by
  simp only [slots, fields_map, List.flatMap_map, List.map_flatMap, List.zipIdx_map, List.map_map,
    Function.comp_def, Prod.map_fst, Prod.map_snd, id]

theorem mem_held {a : α} : (∃ field, a ∈ node.held field) ↔ a ∈ node.toList := by
  rw [← map_snd_slots, List.mem_map]
  constructor
  · rintro ⟨field, ha⟩
    obtain ⟨i, hi⟩ := List.getElem?_of_mem ha
    exact ⟨((field, i), a), mem_slots.mpr hi, rfl⟩
  · rintro ⟨⟨⟨field, i⟩, a⟩, hmem, rfl⟩
    exact ⟨field, List.mem_of_getElem? (mem_slots.mp hmem)⟩

/-- What stands in the fields is all that a node holds. A function on children has to be applied to
    all of them to give a node of another type, and two functions give the same node just when they
    agree on every child in every field. -/
theorem map_eq_map_iff {f g : α → β} :
    node.map f = node.map g ↔ ∀ field, ∀ a ∈ node.held field, f a = g a := by
  constructor
  · intro h field a ha
    have hlist := congrArg toList h
    rw [toList_map, toList_map, List.map_inj_left] at hlist
    exact hlist a (mem_held.mp ⟨field, ha⟩)
  · intro h
    refine map_congr fun a ha => ?_
    obtain ⟨field, hfield⟩ := mem_held.mpr ha
    exact h field a hfield

end Node

/-- A way into a tree: the slots of the children taken from the root on. -/
abbrev Route := List Slot

namespace Tree

/-- The tree at the end of a route. -/
def reach? : Tree → Route → Option Tree
  | t, [] => some t
  | t, (field, i) :: route => (t.node.held field)[i]?.bind fun child => child.reach? route

/-- The routes into a tree, each before those that go on from its end. -/
def routes (t : Tree) : List Route :=
  t.fold fun _ node => [] :: node.slots.flatMap fun s => s.2.map (s.1 :: ·)

theorem routes_mk (span : Span) (node : Node Tree) : (mk span node).routes =
    [] :: node.slots.flatMap fun s => s.2.routes.map (s.1 :: ·) := by
  rw [routes, fold_mk, Node.slots_map, List.flatMap_map]
  rfl

/-- A route starts with the slot of a child and goes on inside the child. -/
theorem reach_cons {span : Span} {node : Node Tree} {s : Slot × Tree} (h : s ∈ node.slots)
    (route : Route) : (mk span node).reach? (s.1 :: route) = s.2.reach? route := by
  obtain ⟨⟨field, i⟩, child⟩ := s
  rw [reach?, node_mk, Node.mem_slots.mp h, Option.bind_some]

/-- The descendants stand at the ends of the routes, in the same order. -/
theorem map_reach_routes (t : Tree) : t.routes.map t.reach? = t.descendants.map some := by
  induction t using inductionOn with
  | step span node ih =>
    have hbelow : ∀ s ∈ node.slots, (s.2.routes.map (s.1 :: ·)).map (mk span node).reach? =
        s.2.descendants.map some := by
      intro s hs
      have hchild : s.2 ∈ node.toList := by
        rw [← Node.map_snd_slots]
        exact List.mem_map_of_mem hs
      rw [List.map_map, ← ih s.2 hchild]
      exact List.map_congr_left fun route _ => reach_cons hs route
    rw [routes_mk, descendants_mk, List.map_cons, List.map_cons, reach?, List.map_flatMap,
      List.map_flatMap, List.flatMap_congr hbelow, ← Node.map_snd_slots, List.flatMap_map]

/-- No route is taken twice. -/
theorem nodup_routes (t : Tree) : t.routes.Nodup := by
  induction t using inductionOn with
  | step span node ih =>
    rw [routes_mk, List.nodup_cons, List.nodup_flatMap]
    refine ⟨fun hroot => ?_, fun s hs => ?_, ?_⟩
    · obtain ⟨s, -, hs⟩ := List.mem_flatMap.mp hroot
      obtain ⟨route, -, hroute⟩ := List.mem_map.mp hs
      exact absurd hroute (List.cons_ne_nil s.1 route)
    · have hchild : s.2 ∈ node.toList := by
        rw [← Node.map_snd_slots]
        exact List.mem_map_of_mem hs
      exact (ih s.2 hchild).map List.cons_injective
    · -- Routes into two children differ in their first slot.
      refine (List.pairwise_map.mp (Node.nodup_slots node)).imp fun {s u} hne route hs hu => hne ?_
      obtain ⟨p, -, rfl⟩ := List.mem_map.mp hs
      obtain ⟨q, -, hq⟩ := List.mem_map.mp hu
      exact (List.cons.inj hq).1.symm

/-- Every route that leads somewhere is one of the routes into the tree. -/
theorem mem_routes {t : Tree} {route : Route} : route ∈ t.routes ↔ (t.reach? route).isSome := by
  induction route generalizing t with
  | nil =>
    rcases t with ⟨span, node⟩
    simp only [routes_mk, List.mem_cons, true_or, reach?, Option.isSome_some]
  | cons slot route ih =>
    rcases t with ⟨span, node⟩
    rcases slot with ⟨field, i⟩
    rw [routes_mk, List.mem_cons, List.mem_flatMap, reach?, node_mk]
    constructor
    · rintro (h | ⟨⟨slot, child⟩, hs, h⟩)
      · exact absurd h (List.cons_ne_nil _ _)
      · obtain ⟨rest, hrest, heq⟩ := List.mem_map.mp h
        obtain ⟨rfl, rfl⟩ := List.cons.inj heq
        rw [Node.mem_slots.mp hs, Option.bind_some]
        exact ih.mp hrest
    · intro h
      -- A slot with nothing in it leads nowhere.
      obtain ⟨child, hchild, hsome⟩ : ∃ child, (node.held field)[i]? = some child ∧
          (child.reach? route).isSome := by
        rcases hchild : (node.held field)[i]? with _ | child
        · rw [hchild] at h
          cases h
        · rw [hchild, Option.bind_some] at h
          exact ⟨child, rfl, h⟩
      exact .inr ⟨((field, i), child), Node.mem_slots.mpr hchild,
        List.mem_map.mpr ⟨route, ih.mpr hsome, rfl⟩⟩

end Tree

end Rendition
