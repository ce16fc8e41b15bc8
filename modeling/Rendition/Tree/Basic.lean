import Rendition.Tree.Node

/-!
# Syntax trees

A tree is a node whose children are trees, at a place of the source text. Everything that is
computed from a tree is a fold (`Tree.fold`, or `Tree.para` where a node needs its children
themselves beside their results), so the recursion over trees is written once.

## Main definitions

* `Tree`: A syntax tree.
* `Tree.fold`: The value of a tree, from the values of the children of each node.
* `Tree.para`: The same, where each node also sees its children.
* `Tree.descendants`: The tree and all trees inside it, a node before its children.

## Theorems

* `fold_mk`, `para_mk`: One step of a fold.
* `inductionOn`: What holds of a tree when it holds of its children holds of all trees.
* `descendants_mk`: A node comes first, then what is inside each child.
-/

namespace Rendition

/-- A syntax tree: a node at a place of the source text. -/
inductive Tree where
  | mk (span : Span) (node : Node Tree)

namespace Tree

/-- Where the tree starts. -/
def span : Tree → Span
  | mk span _ => span

/-- The node at the root. -/
def node : Tree → Node Tree
  | mk _ node => node

@[simp] theorem span_mk (span : Span) (node : Node Tree) : (mk span node).span = span := rfl

@[simp] theorem node_mk (span : Span) (node : Node Tree) : (mk span node).node = node := rfl

/-- The kind of the root. -/
def kind (t : Tree) : NodeKind :=
  t.node.kind

/-- The children of the root. -/
def children (t : Tree) : List Tree :=
  t.node.toList

variable {β : Type}

section Fold

variable (f : Span → Node β → β)

mutual

/-- The value of a tree, from its place and the values of its children. -/
def fold : Tree → β
  | mk span node => f span (foldNode node)

/-- The node with each child replaced by its value. -/
def foldNode : Node Tree → Node β
  | .moduleDef body => .moduleDef (foldList body)
  | .functionDef name params body => .functionDef name params (foldList body)
  | .returnStmt value => .returnStmt (foldOption value)
  | .assign target value => .assign (fold target) (fold value)
  | .augAssign target op value => .augAssign (fold target) op (fold value)
  | .exprStmt value => .exprStmt (fold value)
  | .ifStmt test body orelse => .ifStmt (fold test) (foldList body) (foldList orelse)
  | .whileLoop test body => .whileLoop (fold test) (foldList body)
  | .forLoop target iter body => .forLoop (fold target) (fold iter) (foldList body)
  | .passStmt => .passStmt
  | .breakStmt => .breakStmt
  | .continueStmt => .continueStmt
  | .tryStmt body handlers finalbody =>
    .tryStmt (foldList body) (foldHandlers handlers) (foldList finalbody)
  | .withStmt items body => .withStmt (foldItems items) (foldList body)
  | .raiseStmt exception => .raiseStmt (foldOption exception)
  | .classDef name bases body => .classDef name (foldList bases) (foldList body)
  | .importStmt source names => .importStmt source names
  | .ident id => .ident id
  | .constant value => .constant value
  | .binOp left op right => .binOp (fold left) op (fold right)
  | .unaryOp op operand => .unaryOp op (fold operand)
  | .compare left ops comparators => .compare (fold left) ops (foldList comparators)
  | .boolOp op values => .boolOp op (foldList values)
  | .call func args keywords => .call (fold func) (foldList args) (foldKeywords keywords)
  | .attr value name => .attr (fold value) name
  | .subscript value index => .subscript (fold value) (fold index)
  | .slice lower upper step => .slice (foldOption lower) (foldOption upper) (foldOption step)
  | .list items => .list (foldList items)
  | .tuple items => .tuple (foldList items)
  | .dict entries => .dict (foldEntries entries)
  | .ifExp test body orelse => .ifExp (fold test) (fold body) (fold orelse)
  | .lambda params body => .lambda params (fold body)

/-- The values of a list of trees. -/
def foldList : List Tree → List β
  | [] => []
  | t :: rest => fold t :: foldList rest

/-- The value of a tree that may be absent. -/
def foldOption : Option Tree → Option β
  | none => none
  | some t => some (fold t)

/-- The clauses with their children replaced by values. -/
def foldHandlers : List (Handler Tree) → List (Handler β)
  | [] => []
  | h :: rest => foldHandler h :: foldHandlers rest

/-- A clause with its children replaced by values. -/
def foldHandler : Handler Tree → Handler β
  | ⟨span, exception, name, body⟩ => ⟨span, foldOption exception, name, foldList body⟩

/-- The items with their contexts replaced by values. -/
def foldItems : List (WithItem Tree) → List (WithItem β)
  | [] => []
  | item :: rest => foldItem item :: foldItems rest

/-- An item with its context replaced by its value. -/
def foldItem : WithItem Tree → WithItem β
  | ⟨context, asName⟩ => ⟨fold context, asName⟩

/-- The keyword arguments with their values folded. -/
def foldKeywords : List (Keyword Tree) → List (Keyword β)
  | [] => []
  | keyword :: rest => foldKeyword keyword :: foldKeywords rest

/-- A keyword argument with its value folded. -/
def foldKeyword : Keyword Tree → Keyword β
  | ⟨name, value⟩ => ⟨name, fold value⟩

/-- The entries with keys and values folded. -/
def foldEntries : List (Tree × Tree) → List (β × β)
  | [] => []
  | entry :: rest => foldEntry entry :: foldEntries rest

/-- An entry with its key and its value folded. -/
def foldEntry : Tree × Tree → β × β
  | (key, value) => (fold key, fold value)

end

theorem foldList_eq : ∀ ts : List Tree, foldList f ts = ts.map (fold f)
  | [] => by simp [foldList]
  | t :: rest => by simp [foldList, foldList_eq rest]

theorem foldOption_eq : ∀ t : Option Tree, foldOption f t = t.map (fold f)
  | none => by simp [foldOption]
  | some t => by simp [foldOption]

theorem foldHandlers_eq : ∀ hs : List (Handler Tree),
    foldHandlers f hs = hs.map (Handler.map (fold f))
  | [] => by simp [foldHandlers]
  | ⟨span, exception, name, body⟩ :: rest => by
    simp [foldHandlers, foldHandler, foldHandlers_eq rest, Handler.map, foldOption_eq, foldList_eq]

theorem foldItems_eq : ∀ is : List (WithItem Tree), foldItems f is = is.map (WithItem.map (fold f))
  | [] => by simp [foldItems]
  | ⟨context, asName⟩ :: rest => by simp [foldItems, foldItem, foldItems_eq rest, WithItem.map]

theorem foldKeywords_eq : ∀ ks : List (Keyword Tree),
    foldKeywords f ks = ks.map (Keyword.map (fold f))
  | [] => by simp [foldKeywords]
  | ⟨name, value⟩ :: rest => by simp [foldKeywords, foldKeyword, foldKeywords_eq rest, Keyword.map]

theorem foldEntries_eq : ∀ es : List (Tree × Tree),
    foldEntries f es = es.map fun entry => (fold f entry.1, fold f entry.2)
  | [] => by simp [foldEntries]
  | (key, value) :: rest => by simp [foldEntries, foldEntry, foldEntries_eq rest]

theorem foldNode_eq (node : Node Tree) : foldNode f node = node.map (fold f) := by
  cases node <;>
    simp [foldNode, Node.map, foldList_eq, foldOption_eq, foldHandlers_eq, foldItems_eq,
      foldKeywords_eq, foldEntries_eq]

theorem fold_mk (span : Span) (node : Node Tree) :
    fold f (mk span node) = f span (node.map (fold f)) := by
  rw [fold, foldNode_eq]

end Fold

/-- The number of nodes on the longest way down the tree. -/
def height (t : Tree) : Nat :=
  t.fold fun _ node => node.toList.foldr max 0 + 1

theorem height_mk (span : Span) (node : Node Tree) :
    height (mk span node) = (node.toList.map height).foldr max 0 + 1 := by
  rw [height, fold_mk, Node.toList_map]
  rfl

theorem le_foldr_max {n : Nat} : ∀ {ns : List Nat}, n ∈ ns → n ≤ ns.foldr max 0
  | m :: rest, h => by
    rcases List.mem_cons.mp h with rfl | h
    · exact Nat.le_max_left ..
    · exact Nat.le_trans (le_foldr_max h) (Nat.le_max_right ..)

theorem height_lt_of_mem {span : Span} {node : Node Tree} {c : Tree} (h : c ∈ node.toList) :
    height c < height (mk span node) := by
  rw [height_mk]
  exact Nat.lt_succ_of_le (le_foldr_max (List.mem_map_of_mem h))

/-- What holds of every tree whose children have it holds of all trees. -/
theorem inductionOn {P : Tree → Prop}
    (step : ∀ span node, (∀ c ∈ Node.toList node, P c) → P (mk span node)) (t : Tree) : P t :=
  match t with
  | mk span node => step span node fun c _ => inductionOn step c
termination_by t.height
decreasing_by exact height_lt_of_mem ‹_›

/-- The value of a tree, from its place and its children together with their values. -/
def para (f : Span → Node (Tree × β) → β) (t : Tree) : β :=
  (t.fold fun span node => (mk span (node.map Prod.fst), f span node)).2

theorem para_fst (f : Span → Node (Tree × β) → β) (t : Tree) :
    (t.fold fun span node => (mk span (node.map Prod.fst), f span node)).1 = t := by
  induction t using inductionOn with
  | step span node ih =>
    rw [fold_mk]
    simp only [Node.map_map]
    rw [Node.map_congr ih, Node.map_id]

theorem para_mk (f : Span → Node (Tree × β) → β) (span : Span) (node : Node Tree) :
    para f (mk span node) = f span (node.map fun c => (c, para f c)) := by
  rw [para, fold_mk]
  simp only
  congr 1
  refine Node.map_congr fun c _ => ?_
  rw [Prod.ext_iff]
  exact ⟨para_fst f c, rfl⟩

/-- The tree and all trees inside it: a node, then what is inside each child in turn. -/
def descendants (t : Tree) : List Tree :=
  t.para fun span node => mk span (node.map Prod.fst) :: node.toList.flatMap Prod.snd

theorem descendants_mk (span : Span) (node : Node Tree) :
    descendants (mk span node) = mk span node :: node.toList.flatMap descendants := by
  rw [descendants, para_mk, Node.map_map, Node.toList_map, List.flatMap_map]
  simp only [Node.map_id]
  rfl

/-- The descendant reached by taking, one after another, the children of the given numbers. -/
def descend? : Tree → List Nat → Option Tree
  | t, [] => some t
  | t, i :: path => t.children[i]?.bind fun child => child.descend? path

end Tree

end Rendition
