import Rendition.Json.Printer
import Rendition.Rendering.Rule

/-!
# Rendition as s-expressions

A tree becomes a value of the data format: a list that starts with a name for the construct,
followed by its parts. Every node has a rule.

## Main definitions

* `Sexpr.form`: A list that starts with a name.
* `Sexpr.operatorHead`, `Sexpr.unaryHead`, `Sexpr.comparisonHead`: The names of operations.
* `Sexpr.rule`: What each node is rendered as.
* `Sexpr.renderer`: The rendition with its state.
-/

namespace Rendition.Sexpr

/-- A list that starts with a name. -/
def form (head : String) (items : List Json) : Json :=
  .array (.string head :: items)

/-- The name of an operation with two operands. -/
def operatorHead : Operator → String
  | .add => "math.add"
  | .sub => "math.sub"
  | .mult => "math.mul"
  | .matMult => "math.matmul"
  | .div => "math.div"
  | .floorDiv => "math.floordiv"
  | .mod => "math.mod"
  | .pow => "math.pow"
  | .lShift => "bit.shl"
  | .rShift => "bit.shr"
  | .bitOr => "bit.or"
  | .bitXor => "bit.xor"
  | .bitAnd => "bit.and"

/-- The name of an operation with one operand. -/
def unaryHead : UnaryOperator → String
  | .invert => "bit.not"
  | .not => "logic.not"
  | .uAdd => "math.pos"
  | .uSub => "math.neg"

/-- The name of a comparison. -/
def comparisonHead : Comparison → String
  | .eq => "cmp.eq"
  | .notEq => "cmp.ne"
  | .lt => "cmp.lt"
  | .ltE => "cmp.le"
  | .gt => "cmp.gt"
  | .gtE => "cmp.ge"
  | .is => "cmp.is"
  | .isNot => "cmp.is_not"
  | .isIn => "cmp.in"
  | .notIn => "cmp.not_in"

/-- The name of a chain of conditions. -/
def connectiveHead : Connective → String
  | .and => "logic.and"
  | .or => "logic.or"

/-- The value of a constant. What is no finite number has no written form and becomes `null`. -/
def constantValue : Literal → Json
  | .none => .null
  | .bool value => .bool value
  | .int value => .int value
  | .float value => if value.isFinite then .float value else .null
  | .str value => .string value

/-- Each comparison with the operand after it. -/
def links : List Comparison → List Json → List Json
  | op :: ops, operand :: operands => form (comparisonHead op) [operand] :: links ops operands
  | _, _ => []

/-- What each node is rendered as. -/
def rule {m : Type → Type} [Monad m] : Rule m Json := fun _ node => do
  let all (visits : List (Visit m Json)) := Json.array <$> runAll visits
  let optional := runOr (m := m) Json.null
  match node with
  | .moduleDef body => return form "module" (← runAll body)
  | .functionDef name params body =>
    return form "std.fn" [.string name, Json.ofStrings params, ← all body]
  | .returnStmt value => return form "return" [← optional value]
  | .assign target value =>
    let target ← target.run
    return form "set" [target, ← value.run]
  | .augAssign target op value =>
    let target ← target.run
    return form "set" [target, form (operatorHead op) [target, ← value.run]]
  | .exprStmt value => return some (← value.run)
  | .ifStmt test body orelse =>
    let test ← test.run
    let body ← all body
    return form "if" [test, body, ← all orelse]
  | .whileLoop test body =>
    let test ← test.run
    return form "while" [test, ← all body]
  | .forLoop target iter body =>
    let target ← target.run
    let iter ← iter.run
    return form "for" [target, iter, ← all body]
  | .passStmt => return form "pass" []
  | .breakStmt => return form "break" []
  | .continueStmt => return form "continue" []
  | .tryStmt body handlers finalbody =>
    let body ← all body
    let clauses ← handlers.mapM fun handler => do
      let exception ← optional handler.exception
      return form "except" [exception, Json.ofString? handler.name, ← all handler.body]
    return form "try" [body, .array clauses, ← all finalbody]
  | .withStmt items body =>
    let items ← items.mapM fun item =>
      return Json.array [← item.context.run, Json.ofString? item.asName]
    return form "with" [.array items, ← all body]
  | .raiseStmt exception => return form "raise" [← optional exception]
  | .classDef name bases body =>
    let bases ← all bases
    return form "class" [.string name, bases, ← all body]
  | .importStmt source names =>
    let names := names.map fun name => Json.array [.string name.name, Json.ofString? name.asName]
    return form "import" [Json.ofString? source, .array names]
  | .ident id => return form "var" [.string id]
  | .constant value => return constantValue value
  | .binOp left op right =>
    let left ← left.run
    return form (operatorHead op) [left, ← right.run]
  | .unaryOp op operand => return form (unaryHead op) [← operand.run]
  | .compare left ops comparators =>
    let left ← left.run
    return form "compare" (left :: links ops (← runAll (comparators.take ops.length)))
  | .boolOp op values => return form (connectiveHead op) (← runAll values)
  | .call func args keywords =>
    let func ← func.run
    let args ← all args
    let keywords ← keywords.mapM fun keyword => return (keyword.name, ← keyword.value.run)
    return form "call" [func, args, Json.ofMembers keywords]
  | .attr value name => return form "attr" [← value.run, .string name]
  | .subscript value index =>
    let value ← value.run
    return form "index" [value, ← index.run]
  | .slice lower upper step =>
    let lower ← optional lower
    let upper ← optional upper
    return form "slice" [lower, upper, ← optional step]
  | .list items => return form "list" (← runAll items)
  | .tuple items => return form "tuple" (← runAll items)
  | .dict entries =>
    let entries ← entries.mapM fun (key, value) => do
      let key ← key.run
      return Json.array [key, ← value.run]
    return form "dict" entries
  | .ifExp test body orelse =>
    let test ← test.run
    let body ← body.run
    return form "if" [test, body, ← orelse.run]
  | .lambda params body => return form "lambda" [Json.ofStrings params, ← body.run]

/-- The state of a rendition. -/
structure State where
  /-- Whether values are laid out over several lines. -/
  pretty : Bool
  /-- The value of the last tree rendered in full. -/
  output : Json

/-- The text that a state shows. -/
def State.text (state : State) : String :=
  if state.pretty then state.output.pretty else state.output.compact

/-- The rendition with its state. -/
def renderer : Renderer State Json where
  create _ config := ⟨config.isPretty, .null⟩
  fragment tree := tree.render rule
  keep value state := { state with output := value }
  shown := State.text
  fragmentText := Json.compact

end Rendition.Sexpr
