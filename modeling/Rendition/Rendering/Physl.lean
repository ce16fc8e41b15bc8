import Rendition.Decimal.Style
import Rendition.Text.Quoted
import Rendition.Rendering.Scope

/-!
# Rendition as PhySL

PhySL is an expression language: a function is `define(f, a, block(…))`, a sum is `__add(a, b)`, a
loop is `for_each(lambda(i, …), xs)`. It has no exceptions, classes, imports or early exits from
loops, and no primitives for some operators; trees with these have no rendition.

Names can carry the place that they come from, as in `x$3$4`.

## Main definitions

* `Physl.primitive?`, `Physl.comparisonPrimitive?`: The primitive of an operator, if there is one.
* `Physl.rule`: What each node is rendered as.
* `Physl.renderer`: The rendition with its state.
-/

namespace Rendition.Physl

/-- The primitive of an operator, if there is one. -/
def primitive? : Operator → Option String
  | .add => some "__add"
  | .sub => some "__sub"
  | .mult => some "__mul"
  | .div => some "__div"
  | .mod => some "__mod"
  | .matMult => some "dot"
  | .pow => some "power"
  | .floorDiv | .lShift | .rShift | .bitOr | .bitXor | .bitAnd => none

/-- The primitive of a comparison, if there is one. -/
def comparisonPrimitive? : Comparison → Option String
  | .eq => some "__eq"
  | .notEq => some "__ne"
  | .lt => some "__lt"
  | .ltE => some "__le"
  | .gt => some "__gt"
  | .gtE => some "__ge"
  | .is | .isNot | .isIn | .notIn => none

/-- The primitive of a connective. -/
def connectivePrimitive : Connective → String
  | .and => "__and"
  | .or => "__or"

/-- The names of modules whose attributes name primitives directly. -/
def moduleAliases : List String :=
  ["np", "numpy"]

/-- Whether a node is the name of such a module. -/
def isModuleAlias {α : Type} (node : Node α) : Bool :=
  match node with
  | .ident id => moduleAliases.contains id
  | _ => false

/-- The text of a constant. -/
def constantText : Literal → String
  | .none => "nil"
  | .bool value => if value then "true" else "false"
  | .int value => toString value
  | .float value => Style.source.text value
  | .str value => Text.quote value

/-- A name, with the place that it comes from if places are asked for. -/
def tag (annotate : Bool) (name : String) (span : Span) : String :=
  if annotate then name ++ "$" ++ toString span.line ++ "$" ++ toString span.column else name

/-- The application of a primitive. -/
def apply (annotate : Bool) (primitive : String) (span : Span) (args : List String) : String :=
  tag annotate primitive span ++ "(" ++ ", ".intercalate args ++ ")"

/-- Statements as one expression: a single one as it is, several as a block. -/
def suite (annotate : Bool) (span : Span) : List String → String
  | [single] => single
  | statements => apply annotate "block" span statements

/-- The pairs of neighbours in a list. -/
def neighbours {α : Type} (items : List α) : List (α × α) :=
  items.zip items.tail

/-- A chain of comparisons holds when each of its links does. -/
def chain (annotate : Bool) (span : Span) (primitives operands : List String) : String :=
  let links := (primitives.zip (neighbours operands)).map fun (primitive, left, right) =>
    apply annotate primitive span [left, right]
  match links with
  | [single] => single
  | links => apply annotate "__and" span links

variable {σ : Type} [Scoping σ]

/-- What a call applies and the argument that it brings along: a name, a primitive behind the name
    of a module, or a method, whose object becomes the first argument. -/
def callee? (annotate : Bool) (func : Visit (Walk σ) String) :
    Walk σ (Option (String × List String)) := do
  match func.node with
  | .ident id => return some (tag annotate id func.span, [])
  | .attr value name =>
    if isModuleAlias value.node then return some (tag annotate name func.span, [])
    else return some (tag annotate name func.span, [← value.run])
  | _ => return none

/-- The primitive that assigns to a name: the first assignment in a function defines it. -/
def assignment (fresh : Bool) : String :=
  if fresh then "define" else "store"

/-- What each node is rendered as. -/
def rule (annotate : Bool) : Rule (Walk σ) String := fun span node => do
  let apply := apply annotate
  let tag := tag annotate
  let suite := suite annotate
  match node with
  | .moduleDef body => return some ("\n".intercalate (← runAll body))
  | .functionDef name params body =>
    -- The name of a function belongs to the scope around it.
    discard (declare name)
    let statements ← inScope params (runAll body)
    return some (apply "define" span
      (tag name span :: params.map (tag · span) ++ [suite span statements]))
  | .returnStmt value => return some (← runOr "nil" value)
  | .assign target value =>
    let value ← value.run
    match target.node with
    | .ident id =>
      -- The value is rendered before the name counts as defined.
      let fresh ← declare id
      return some (apply (assignment fresh) span [tag id target.span, value])
    | .subscript .. => return some (apply "store" span [← target.run, value])
    | _ => return none
  | .augAssign target op value =>
    let some primitive := primitive? op | return none
    match target.node with
    | .ident _ | .subscript .. =>
      let target ← target.run
      let value ← value.run
      return some (apply "store" span [target, apply primitive span [target, value]])
    | _ => return none
  | .exprStmt value => return some (← value.run)
  | .ifStmt test body orelse =>
    let test ← test.run
    let body ← runAll body
    let orelse ← runAll orelse
    return some (apply "if" span
      ([test, suite span body] ++ if orelse.isEmpty then [] else [suite span orelse]))
  | .whileLoop test body =>
    let test ← test.run
    return some (apply "while" span [test, suite span (← runAll body)])
  | .forLoop target iter body =>
    let .ident loopName := target.node | return none
    let iter ← iter.run
    -- The variable of a loop belongs to the function that the loop applies.
    let statements ← withVariable loopName (runAll body)
    let step := apply "lambda" span [tag loopName target.span, suite span statements]
    return some (apply "for_each" span [step, iter])
  | .passStmt => return some "nil"
  | .ident id => return some (tag id span)
  | .constant value => return some (constantText value)
  | .binOp left op right =>
    let some primitive := primitive? op | return none
    let left ← left.run
    return some (apply primitive span [left, ← right.run])
  | .unaryOp op operand =>
    let operand ← operand.run
    match op with
    | .uSub => return some (apply "__minus" span [operand])
    | .not => return some (apply "__not" span [operand])
    | .uAdd => return some operand
    | .invert => return none
  | .compare left ops comparators =>
    let some primitives := ops.mapM comparisonPrimitive? | return none
    let left ← left.run
    let comparators ← runAll comparators
    return some (chain annotate span primitives (left :: comparators))
  | .boolOp op values => return some (apply (connectivePrimitive op) span (← runAll values))
  | .call func args keywords =>
    let some (name, object) ← callee? annotate func | return none
    let args ← runAll args
    let keywords ← keywords.mapM fun keyword => do
      let value ← keyword.value.run
      return apply "__arg" keyword.value.span [tag keyword.name keyword.value.span, value]
    return some (name ++ "(" ++ ", ".intercalate (object ++ args ++ keywords) ++ ")")
  | .attr value name =>
    if isModuleAlias value.node then return some (tag name span)
    else return some (apply name span [← value.run])
  | .subscript value index =>
    let value ← value.run
    match index.node with
    | .tuple items => return some (apply "slice" span (value :: (← runAll items)))
    | _ => return some (apply "slice" span [value, ← index.run])
  | .slice lower upper step =>
    let lower ← runOr "nil" lower
    let upper ← runOr "nil" upper
    let step ← step.toList.mapM Visit.run
    return some (apply "list" span (lower :: upper :: step))
  | .list items | .tuple items => return some (apply "list" span (← runAll items))
  | .dict entries =>
    let pairs ← entries.mapM fun (key, value) => do
      let key ← key.run
      return apply "list" span [key, ← value.run]
    return some (apply "dict" span pairs)
  | .ifExp test body orelse =>
    let test ← test.run
    let body ← body.run
    return some (apply "if" span [test, body, ← orelse.run])
  | .lambda params body =>
    let body ← inScope params body.run
    return some (apply "lambda" span (params.map (tag · span) ++ [body]))
  | .breakStmt | .continueStmt | .tryStmt .. | .withStmt .. | .raiseStmt _ | .classDef ..
  | .importStmt .. => return none

/-- The state of a rendition. -/
structure State where
  /-- Whether names carry places. -/
  annotate : Bool
  scopes : Scopes
  /-- The text of the last tree rendered in full. -/
  output : String

instance : Scoping State where
  scopes := State.scopes
  setScopes scopes state := { state with scopes }
  scopes_setScopes _ _ := rfl
  setScopes_scopes _ := rfl
  setScopes_setScopes _ _ _ := rfl

/-- The rendition with its state. At first there is one scope, the module's, and it is empty. -/
def renderer : Renderer State String where
  create _ config := ⟨config.annotates, [[]], ""⟩
  fragment tree := do tree.render (rule (← get).annotate)
  keep text state := { state with output := text }
  shown := State.output
  fragmentText := id

theorem run_fragment (t : Tree) (s : State) :
    (renderer.fragment t).run.run s = (t.render (rule s.annotate)).run.run s := by
  simp only [renderer, Walk.run_bind, Walk.run_get]

end Rendition.Physl
