import Rendition.Proofs.Rendering.Observed
import Rendition.Rendering.Physl

/-!
# The script of a PhySL rendition

The rule of PhySL has a clause for every kind of node, but only few things can happen in one: the
node is refused at once, names are defined or forgotten, some of the trees below are rendered one
after another, and the texts of these are put together. This module says which of them happens at
which node, without running anything. Everything about scopes, refusals and texts is derived from
this script.

Not every child is rendered: the variable of a loop, the name assigned to and the name behind a call
are only looked at, and so is a tuple of indices, whose items are rendered in its place.

## Main definitions

* `Physl.parts`: The trees below a node that are rendered, in order, with their positions.
* `Physl.Binding`, `Physl.binding`: What a node does to the names around its parts.
* `Physl.refuses`, `Physl.declines`: Whether a node is refused before or after its parts are
  rendered.
* `Physl.assemble`: The text of a node, from the texts of its parts.
* `Physl.script`: The steps of the rendition of a node.
-/

namespace Rendition.Physl

/-- Trees with their positions, which are counted from `start`. -/
def below (path : Position) (start : Nat) (ts : List Tree) : List (Position × Tree) :=
  ts.mapIdx fun i t => (path ++ [i + start], t)

/-- The object of a method call, which is rendered as the first argument. -/
def receiver (func : Tree) : List (Position × Tree) :=
  match func.node with
  | .attr value _ => if isModuleAlias value.node then [] else [([0, 0], value)]
  | _ => []

/-- An element that is assigned to, which is rendered after the value. -/
def element (target : Tree) : List (Position × Tree) :=
  match target.node with
  | .subscript .. => [([0], target)]
  | _ => []

/-- The indices of an element: those in a tuple one by one, any other as it is. -/
def indices (index : Tree) : List (Position × Tree) :=
  match index.node with
  | .tuple items => below [1] 0 items
  | _ => [([1], index)]

/-- The trees below a node that are rendered when the node is, in order, with their positions. -/
def parts : Node Tree → List (Position × Tree)
  | .assign target value => ([1], value) :: element target
  | .forLoop _ iter body => ([1], iter) :: below [] 2 body
  | .call func args keywords => receiver func ++ below [] 1 (args ++ keywords.map Keyword.value)
  | .attr value _ => if isModuleAlias value.node then [] else [([0], value)]
  | .subscript value index => ([0], value) :: indices index
  | node => below [] 0 node.toList

/-- What a node does to the names around its parts. -/
inductive Binding where
  /-- The parts are rendered among the names that are there. -/
  | none
  /-- The name is defined, and the parts belong to a function of their own. -/
  | function (name : String) (params : List String)
  /-- The parts belong to a function of their own. -/
  | lambda (params : List String)
  /-- All parts after the first are rendered while the name is bound. -/
  | loop (name : String)
  /-- The name is defined after the parts are rendered. -/
  | name (id : String)
  deriving DecidableEq

/-- What a node does to the names around its parts. -/
def binding : Node Tree → Binding
  | .functionDef name params _ => .function name params
  | .lambda params _ => .lambda params
  | .forLoop target _ _ => match target.node with
    | .ident id => .loop id
    | _ => .none
  | .assign target _ => match target.node with
    | .ident id => .name id
    | _ => .none
  | _ => .none

/-- Whether a tree is a name or an element. -/
def isVariable (t : Tree) : Bool :=
  match t.node with
  | .ident _ | .subscript .. => true
  | _ => false

/-- Whether a tree is a name or an attribute. -/
def isCallee (t : Tree) : Bool :=
  match t.node with
  | .ident _ | .attr .. => true
  | _ => false

/-- Whether a node is refused before any part of it is rendered. -/
def refuses : Node Tree → Bool
  | .augAssign target op _ => (primitive? op).isNone || !isVariable target
  | .forLoop target _ _ => match target.node with
    | .ident _ => false
    | _ => true
  | .binOp _ op _ => (primitive? op).isNone
  | .compare _ ops _ => (ops.mapM comparisonPrimitive?).isNone
  | .call func _ _ => !isCallee func
  | .breakStmt | .continueStmt | .tryStmt .. | .withStmt .. | .raiseStmt _ | .classDef ..
  | .importStmt .. => true
  | _ => false

/-- Whether a node is refused after its parts are rendered. -/
def declines : Node Tree → Bool
  | .assign target _ => !isVariable target
  | .unaryOp op _ => op == .invert
  | _ => false

/-- The texts of neighbours as pairs, each put into a list. -/
def pairTexts (annotate : Bool) (span : Span) : List String → List String
  | key :: value :: rest =>
    apply annotate "list" span [key, value] :: pairTexts annotate span rest
  | _ => []

/-- The texts of keyword arguments from the texts of their values. -/
def keywordTexts (annotate : Bool) (keywords : List (Keyword Tree)) (values : List String) :
    List String :=
  List.zipWith (fun keyword value => apply annotate "__arg" keyword.value.span
    [tag annotate keyword.name keyword.value.span, value]) keywords values

/-- The bounds of a slice from the texts of those that are given. -/
def boundTexts (lower upper : Option Tree) (texts : List String) : List String :=
  match lower, upper, texts with
  | some _, some _, texts => texts
  | some _, none, lower :: rest => lower :: "nil" :: rest
  | none, some _, texts => "nil" :: texts
  | none, none, texts => "nil" :: "nil" :: texts
  | some _, none, [] => []

/-- The name that a call applies. -/
def calleeText? (annotate : Bool) (func : Tree) : Option String :=
  match func.node with
  | .ident name | .attr _ name => some (tag annotate name func.span)
  | _ => none

/-- The text of a node, from the texts of its parts. Whether a name is new matters where it is
    assigned to. -/
def assemble (annotate fresh : Bool) (span : Span) (texts : List String) :
    Node Tree → Option String
  | .moduleDef _ => some ("\n".intercalate texts)
  | .functionDef name params _ => some (apply annotate "define" span
      (tag annotate name span :: params.map (tag annotate · span)
        ++ [suite annotate span texts]))
  | .returnStmt _ => some (texts.headD "nil")
  | .assign target _ => match target.node, texts with
    | .ident id, value :: _ =>
      some (apply annotate (assignment fresh) span [tag annotate id target.span, value])
    | .subscript .., value :: target :: _ => some (apply annotate "store" span [target, value])
    | _, _ => none
  | .augAssign _ op _ => match primitive? op, texts with
    | some primitive, target :: value :: _ => some (apply annotate "store" span
        [target, apply annotate primitive span [target, value]])
    | _, _ => none
  | .exprStmt _ => texts.head?
  | .ifStmt _ body orelse => match texts with
    | test :: rest => some (apply annotate "if" span
        ([test, suite annotate span (rest.take body.length)]
          ++ if orelse.isEmpty then [] else [suite annotate span (rest.drop body.length)]))
    | [] => none
  | .whileLoop _ _ => match texts with
    | test :: body => some (apply annotate "while" span [test, suite annotate span body])
    | [] => none
  | .forLoop target _ _ => match target.node, texts with
    | .ident id, iter :: body => some (apply annotate "for_each" span
        [apply annotate "lambda" span [tag annotate id target.span, suite annotate span body],
          iter])
    | _, _ => none
  | .passStmt => some "nil"
  | .ident id => some (tag annotate id span)
  | .constant value => some (constantText value)
  | .binOp _ op _ => (primitive? op).map fun primitive => apply annotate primitive span texts
  | .unaryOp op _ => match op with
    | .uSub => some (apply annotate "__minus" span texts)
    | .not => some (apply annotate "__not" span texts)
    | .uAdd => texts.head?
    | .invert => none
  | .compare _ ops _ => (ops.mapM comparisonPrimitive?).map fun primitives =>
      chain annotate span primitives texts
  | .boolOp op _ => some (apply annotate (connectivePrimitive op) span texts)
  | .call func _ keywords => (calleeText? annotate func).map fun name =>
      let count := texts.length - keywords.length
      name ++ "(" ++ ", ".intercalate
        (texts.take count ++ keywordTexts annotate keywords (texts.drop count)) ++ ")"
  | .attr value name =>
    if isModuleAlias value.node then some (tag annotate name span)
    else some (apply annotate name span texts)
  | .subscript _ _ => some (apply annotate "slice" span texts)
  | .slice lower upper _ => some (apply annotate "list" span (boundTexts lower upper texts))
  | .list _ | .tuple _ => some (apply annotate "list" span texts)
  | .dict _ => some (apply annotate "dict" span (pairTexts annotate span texts))
  | .ifExp _ _ _ => some (apply annotate "if" span texts)
  | .lambda params _ =>
    some (apply annotate "lambda" span (params.map (tag annotate · span) ++ texts))
  | .breakStmt | .continueStmt | .tryStmt .. | .withStmt .. | .raiseStmt _ | .classDef ..
  | .importStmt .. => none

variable {σ : Type} [Scoping σ]

/-- The steps of the rendition of a node whose parts are rendered by the given computations. -/
def script (annotate : Bool) (span : Span) (node : Node Tree)
    (visits : List (Visit (Walk σ) String)) : Walk σ (Option String) :=
  if refuses node then pure none
  else match binding node, visits with
    | .none, visits => do
      return assemble annotate false span (← runAll visits) node
    | .function name params, visits => do
      let _ ← declare name
      return assemble annotate false span (← inScope params (runAll visits)) node
    | .lambda params, visits => do
      return assemble annotate false span (← inScope params (runAll visits)) node
    | .loop name, iter :: visits => do
      let iter ← iter.run
      return assemble annotate false span (iter :: (← withVariable name (runAll visits))) node
    | .loop _, [] => pure none
    | .name id, visits => do
      let texts ← runAll visits
      let fresh ← declare id
      return assemble annotate fresh span texts node

end Rendition.Physl
