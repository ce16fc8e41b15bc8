import Rendition.Literal
import Rendition.Operator
import Rendition.Span

/-!
# Nodes of a syntax tree

One node of a syntax tree, with its children left open: `Node α` is a node whose children are
values of type `α`. The type of trees ties the knot (`Rendition.Tree`); the same shape filled with
something else describes what a computation knows about the children of the node at hand.

## Main definitions

* `NodeKind`: The kind of a node, with the names that messages and serialized trees use.
* `Node`: A node with its children.
* `Node.map`: The same node with other children.
* `Node.toList`: The children, in the order in which they are written, except that the parts of a
  conditional expression come condition first.
* `Node.agree`: Two nodes of one kind, with the same names, operators and literals, whose children
  are related one by one.
-/

namespace Rendition

/-- The kinds of nodes. -/
inductive NodeKind where
  | moduleDef | functionDef | returnStmt | assign | augAssign | exprStmt | ifStmt | whileLoop
  | forLoop | passStmt | breakStmt | continueStmt | tryStmt | withStmt | raiseStmt | classDef
  | importStmt
  | ident | constant | binOp | unaryOp | compare | boolOp | call | attr | subscript | slice | list
  | tuple | dict | ifExp | lambda
  deriving DecidableEq

namespace NodeKind

/-- All kinds, statements first. -/
def all : List NodeKind :=
  [moduleDef, functionDef, returnStmt, assign, augAssign, exprStmt, ifStmt, whileLoop, forLoop,
    passStmt, breakStmt, continueStmt, tryStmt, withStmt, raiseStmt, classDef, importStmt, ident,
    constant, binOp, unaryOp, compare, boolOp, call, attr, subscript, slice, list, tuple, dict,
    ifExp, lambda]

/-- The name of the kind in serialized trees. -/
def tag : NodeKind → String
  | moduleDef => "Module"
  | functionDef => "FunctionDef"
  | returnStmt => "Return"
  | assign => "Assign"
  | augAssign => "AugAssign"
  | exprStmt => "ExprStmt"
  | ifStmt => "If"
  | whileLoop => "While"
  | forLoop => "For"
  | passStmt => "Pass"
  | breakStmt => "Break"
  | continueStmt => "Continue"
  | tryStmt => "Try"
  | withStmt => "With"
  | raiseStmt => "Raise"
  | classDef => "ClassDef"
  | importStmt => "Import"
  | ident => "Name"
  | constant => "Constant"
  | binOp => "BinOp"
  | unaryOp => "UnaryOp"
  | compare => "Compare"
  | boolOp => "BoolOp"
  | call => "Call"
  | attr => "Attribute"
  | subscript => "Subscript"
  | slice => "Slice"
  | list => "List"
  | tuple => "Tuple"
  | dict => "Dict"
  | ifExp => "IfExp"
  | lambda => "Lambda"

/-- The name of the kind in messages: an expression statement is called `Expr` there. -/
def text : NodeKind → String
  | exprStmt => "Expr"
  | kind => kind.tag

/-- The kind of that name in serialized trees. -/
def ofTag? (tag : String) : Option NodeKind :=
  all.find? fun kind => kind.tag == tag

end NodeKind

/-- One clause `except exception as name: body` of a `try` statement. -/
structure Handler (α : Type) where
  /-- Where the clause starts. -/
  span : Span
  exception : Option α
  name : Option String
  body : List α

/-- One item `context as alias` of a `with` statement. -/
structure WithItem (α : Type) where
  context : α
  asName : Option String

/-- A keyword argument `name=value` of a call. -/
structure Keyword (α : Type) where
  name : String
  value : α

/-- An imported name, `name as alias`. -/
structure ImportedName where
  name : String
  asName : Option String
  deriving DecidableEq

/-- A node of a syntax tree whose children are of type `α`. -/
inductive Node (α : Type) where
  /-- A whole source text. -/
  | moduleDef (body : List α)
  | functionDef (name : String) (params : List String) (body : List α)
  | returnStmt (value : Option α)
  | assign (target value : α)
  /-- `target op= value` -/
  | augAssign (target : α) (op : Operator) (value : α)
  /-- An expression used as a statement. -/
  | exprStmt (value : α)
  /-- `if test: body else: orelse`, where an `elif` is an `if` alone in `orelse`. -/
  | ifStmt (test : α) (body orelse : List α)
  | whileLoop (test : α) (body : List α)
  | forLoop (target iter : α) (body : List α)
  | passStmt
  | breakStmt
  | continueStmt
  | tryStmt (body : List α) (handlers : List (Handler α)) (finalbody : List α)
  | withStmt (items : List (WithItem α)) (body : List α)
  | raiseStmt (exception : Option α)
  | classDef (name : String) (bases body : List α)
  /-- `import names`, or `from source import names`. -/
  | importStmt (source : Option String) (names : List ImportedName)
  | ident (id : String)
  | constant (value : Literal)
  | binOp (left : α) (op : Operator) (right : α)
  | unaryOp (op : UnaryOperator) (operand : α)
  /-- A chain `left ops[0] comparators[0] ops[1] comparators[1] …`. -/
  | compare (left : α) (ops : List Comparison) (comparators : List α)
  | boolOp (op : Connective) (values : List α)
  | call (func : α) (args : List α) (keywords : List (Keyword α))
  | attr (value : α) (name : String)
  /-- `value[index]`, where several indices form a tuple and a range is a slice. -/
  | subscript (value index : α)
  | slice (lower upper step : Option α)
  | list (items : List α)
  | tuple (items : List α)
  | dict (entries : List (α × α))
  /-- `body if test else orelse` -/
  | ifExp (test body orelse : α)
  | lambda (params : List String) (body : α)

variable {α β γ : Type}

namespace Handler

/-- The same clause with other children. -/
def map (f : α → β) (h : Handler α) : Handler β :=
  ⟨h.span, h.exception.map f, h.name, h.body.map f⟩

/-- The children of the clause. -/
def toList (h : Handler α) : List α :=
  h.exception.toList ++ h.body

end Handler

namespace WithItem

/-- The same item with another context. -/
def map (f : α → β) (item : WithItem α) : WithItem β :=
  ⟨f item.context, item.asName⟩

end WithItem

namespace Keyword

/-- The same argument with another value. -/
def map (f : α → β) (keyword : Keyword α) : Keyword β :=
  ⟨keyword.name, f keyword.value⟩

end Keyword

/-- Two lists of one length whose elements are related one by one. -/
def agreeList (r : α → β → Bool) : List α → List β → Bool
  | [], [] => true
  | a :: as, b :: bs => r a b && agreeList r as bs
  | _, _ => false

/-- Two absent values, or two related ones. -/
def agreeOption (r : α → β → Bool) : Option α → Option β → Bool
  | none, none => true
  | some a, some b => r a b
  | _, _ => false

namespace Node

/-- The kind of a node. -/
def kind : Node α → NodeKind
  | moduleDef .. => .moduleDef
  | functionDef .. => .functionDef
  | returnStmt .. => .returnStmt
  | assign .. => .assign
  | augAssign .. => .augAssign
  | exprStmt .. => .exprStmt
  | ifStmt .. => .ifStmt
  | whileLoop .. => .whileLoop
  | forLoop .. => .forLoop
  | passStmt => .passStmt
  | breakStmt => .breakStmt
  | continueStmt => .continueStmt
  | tryStmt .. => .tryStmt
  | withStmt .. => .withStmt
  | raiseStmt .. => .raiseStmt
  | classDef .. => .classDef
  | importStmt .. => .importStmt
  | ident .. => .ident
  | constant .. => .constant
  | binOp .. => .binOp
  | unaryOp .. => .unaryOp
  | compare .. => .compare
  | boolOp .. => .boolOp
  | call .. => .call
  | attr .. => .attr
  | subscript .. => .subscript
  | slice .. => .slice
  | list .. => .list
  | tuple .. => .tuple
  | dict .. => .dict
  | ifExp .. => .ifExp
  | lambda .. => .lambda

/-- The same node with `f` applied to every child. -/
def map (f : α → β) : Node α → Node β
  | moduleDef body => moduleDef (body.map f)
  | functionDef name params body => functionDef name params (body.map f)
  | returnStmt value => returnStmt (value.map f)
  | assign target value => assign (f target) (f value)
  | augAssign target op value => augAssign (f target) op (f value)
  | exprStmt value => exprStmt (f value)
  | ifStmt test body orelse => ifStmt (f test) (body.map f) (orelse.map f)
  | whileLoop test body => whileLoop (f test) (body.map f)
  | forLoop target iter body => forLoop (f target) (f iter) (body.map f)
  | passStmt => passStmt
  | breakStmt => breakStmt
  | continueStmt => continueStmt
  | tryStmt body handlers finalbody =>
    tryStmt (body.map f) (handlers.map (Handler.map f)) (finalbody.map f)
  | withStmt items body => withStmt (items.map (WithItem.map f)) (body.map f)
  | raiseStmt exception => raiseStmt (exception.map f)
  | classDef name bases body => classDef name (bases.map f) (body.map f)
  | importStmt source names => importStmt source names
  | ident id => ident id
  | constant value => constant value
  | binOp left op right => binOp (f left) op (f right)
  | unaryOp op operand => unaryOp op (f operand)
  | compare left ops comparators => compare (f left) ops (comparators.map f)
  | boolOp op values => boolOp op (values.map f)
  | call func args keywords => call (f func) (args.map f) (keywords.map (Keyword.map f))
  | attr value name => attr (f value) name
  | subscript value index => subscript (f value) (f index)
  | slice lower upper step => slice (lower.map f) (upper.map f) (step.map f)
  | list items => list (items.map f)
  | tuple items => tuple (items.map f)
  | dict entries => dict (entries.map fun entry => (f entry.1, f entry.2))
  | ifExp test body orelse => ifExp (f test) (f body) (f orelse)
  | lambda params body => lambda params (f body)

/-- The children of a node. -/
def toList : Node α → List α
  | moduleDef body => body
  | functionDef _ _ body => body
  | returnStmt value => value.toList
  | assign target value => [target, value]
  | augAssign target _ value => [target, value]
  | exprStmt value => [value]
  | ifStmt test body orelse => test :: (body ++ orelse)
  | whileLoop test body => test :: body
  | forLoop target iter body => target :: iter :: body
  | passStmt => []
  | breakStmt => []
  | continueStmt => []
  | tryStmt body handlers finalbody => body ++ handlers.flatMap Handler.toList ++ finalbody
  | withStmt items body => items.map WithItem.context ++ body
  | raiseStmt exception => exception.toList
  | classDef _ bases body => bases ++ body
  | importStmt _ _ => []
  | ident _ => []
  | constant _ => []
  | binOp left _ right => [left, right]
  | unaryOp _ operand => [operand]
  | compare left _ comparators => left :: comparators
  | boolOp _ values => values
  | call func args keywords => func :: (args ++ keywords.map Keyword.value)
  | attr value _ => [value]
  | subscript value index => [value, index]
  | slice lower upper step => lower.toList ++ upper.toList ++ step.toList
  | list items => items
  | tuple items => items
  | dict entries => entries.flatMap fun entry => [entry.1, entry.2]
  | ifExp test body orelse => [test, body, orelse]
  | lambda _ body => [body]

/-- Two nodes of one kind with the same names, operators and literals, whose children are related
    by `r` and the places of whose handlers are related by `spans`. -/
def agree (spans : Span → Span → Bool) (r : α → β → Bool) : Node α → Node β → Bool
  | moduleDef body, moduleDef body' => agreeList r body body'
  | functionDef name params body, functionDef name' params' body' =>
    name == name' && params == params' && agreeList r body body'
  | returnStmt value, returnStmt value' => agreeOption r value value'
  | assign target value, assign target' value' => r target target' && r value value'
  | augAssign target op value, augAssign target' op' value' =>
    op == op' && r target target' && r value value'
  | exprStmt value, exprStmt value' => r value value'
  | ifStmt test body orelse, ifStmt test' body' orelse' =>
    r test test' && agreeList r body body' && agreeList r orelse orelse'
  | whileLoop test body, whileLoop test' body' => r test test' && agreeList r body body'
  | forLoop target iter body, forLoop target' iter' body' =>
    r target target' && r iter iter' && agreeList r body body'
  | passStmt, passStmt => true
  | breakStmt, breakStmt => true
  | continueStmt, continueStmt => true
  | tryStmt body handlers finalbody, tryStmt body' handlers' finalbody' =>
    agreeList r body body'
      && agreeList (fun h h' => spans h.span h'.span && h.name == h'.name
        && agreeOption r h.exception h'.exception && agreeList r h.body h'.body) handlers handlers'
      && agreeList r finalbody finalbody'
  | withStmt items body, withStmt items' body' =>
    agreeList (fun i i' => i.asName == i'.asName && r i.context i'.context) items items'
      && agreeList r body body'
  | raiseStmt exception, raiseStmt exception' => agreeOption r exception exception'
  | classDef name bases body, classDef name' bases' body' =>
    name == name' && agreeList r bases bases' && agreeList r body body'
  | importStmt source names, importStmt source' names' => source == source' && names == names'
  | ident id, ident id' => id == id'
  | constant value, constant value' => value.agree value'
  | binOp left op right, binOp left' op' right' => op == op' && r left left' && r right right'
  | unaryOp op operand, unaryOp op' operand' => op == op' && r operand operand'
  | compare left ops comparators, compare left' ops' comparators' =>
    ops == ops' && r left left' && agreeList r comparators comparators'
  | boolOp op values, boolOp op' values' => op == op' && agreeList r values values'
  | call func args keywords, call func' args' keywords' =>
    r func func' && agreeList r args args'
      && agreeList (fun k k' => k.name == k'.name && r k.value k'.value) keywords keywords'
  | attr value name, attr value' name' => name == name' && r value value'
  | subscript value index, subscript value' index' => r value value' && r index index'
  | slice lower upper step, slice lower' upper' step' =>
    agreeOption r lower lower' && agreeOption r upper upper' && agreeOption r step step'
  | list items, list items' => agreeList r items items'
  | tuple items, tuple items' => agreeList r items items'
  | dict entries, dict entries' =>
    agreeList (fun e e' => r e.1 e'.1 && r e.2 e'.2) entries entries'
  | ifExp test body orelse, ifExp test' body' orelse' =>
    r test test' && r body body' && r orelse orelse'
  | lambda params body, lambda params' body' => params == params' && r body body'
  | _, _ => false

/-- The same node with the places of its handlers replaced. -/
def mapSpans (f : Span → Span) : Node α → Node α
  | tryStmt body handlers finalbody =>
    tryStmt body (handlers.map fun h => { h with span := f h.span }) finalbody
  | node => node

theorem map_map (g : β → γ) (f : α → β) (node : Node α) :
    (node.map f).map g = node.map fun a => g (f a) := by
  cases node <;> simp [map, Handler.map, WithItem.map, Keyword.map, Function.comp_def]

theorem map_id (node : Node α) : (node.map fun a => a) = node := by
  have handlers : (Handler.map fun a : α => a) = id := funext fun h => by simp [Handler.map]
  have items : (WithItem.map fun a : α => a) = id := funext fun _ => rfl
  have keywords : (Keyword.map fun a : α => a) = id := funext fun _ => rfl
  cases node <;> simp [map, handlers, items, keywords]

theorem toList_map (f : α → β) (node : Node α) : (node.map f).toList = node.toList.map f := by
  cases node <;>
    simp [map, toList, Handler.map, Handler.toList, WithItem.map, Keyword.map, Function.comp_def,
      List.map_flatMap, List.flatMap_map, Option.toList_map]

@[simp] theorem kind_map (f : α → β) (node : Node α) : (node.map f).kind = node.kind := by
  cases node <;> rfl

theorem option_map_congr {f g : α → β} {a : Option α} (h : ∀ x ∈ a.toList, f x = g x) :
    a.map f = a.map g := by
  cases a <;> simp_all

theorem handler_map_congr {f g : α → β} {a : Handler α} (h : ∀ x ∈ a.toList, f x = g x) :
    a.map f = a.map g := by
  simp only [Handler.toList, List.mem_append] at h
  simp only [Handler.map, Handler.mk.injEq, true_and]
  exact ⟨option_map_congr fun x hx => h x (.inl hx), List.map_congr_left fun x hx => h x (.inr hx)⟩

/-- Functions that agree on the children of a node map it to the same node. -/
theorem map_congr {f g : α → β} {node : Node α} (h : ∀ a ∈ node.toList, f a = g a) :
    node.map f = node.map g := by
  cases node with
  | returnStmt value => exact congrArg returnStmt (option_map_congr h)
  | raiseStmt exception => exact congrArg raiseStmt (option_map_congr h)
  | tryStmt body handlers finalbody =>
    simp only [toList, List.mem_append, List.mem_flatMap] at h
    simp only [map, tryStmt.injEq]
    exact ⟨List.map_congr_left fun x hx => h x (.inl (.inl hx)),
      List.map_congr_left fun c hc => handler_map_congr fun x hx => h x (.inl (.inr ⟨c, hc, hx⟩)),
      List.map_congr_left fun x hx => h x (.inr hx)⟩
  | slice lower upper step =>
    simp only [toList, List.mem_append] at h
    simp only [map, slice.injEq]
    exact ⟨option_map_congr fun x hx => h x (.inl (.inl hx)),
      option_map_congr fun x hx => h x (.inl (.inr hx)), option_map_congr fun x hx => h x (.inr hx)⟩
  | _ => simp_all [map, toList, WithItem.map, Keyword.map] <;> grind

end Node

end Rendition
