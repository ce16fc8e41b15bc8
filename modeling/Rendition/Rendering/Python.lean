import Rendition.Decimal.Style
import Rendition.Text.Lines
import Rendition.Text.Quoted
import Rendition.Rendering.Rule

/-!
# Rendition as Python

Every node has a rule here. Compound expressions are put in parentheses, so that their structure
does not depend on precedence; statements are written without indentation, and each suite indents
all the lines of its statements by one level.

## Main definitions

* `Python.suite`: The lines of an indented suite.
* `Python.rule`: What each node is rendered as.
* `Python.renderer`: The rendition with its state.
-/

namespace Rendition.Python

/-- A line one level deeper. An empty line stays empty. -/
def indentLine (indent line : List Char) : List Char :=
  if line.isEmpty then [] else indent ++ line

/-- Statements as an indented suite. A suite without statements is `pass`. -/
def suite (indent : String) (statements : List String) : String :=
  let statements := if statements.isEmpty then ["pass"] else statements
  let lines := statements.flatMap fun statement => Text.lines statement.toList
  String.ofList (Text.joinLines (lines.map (indentLine indent.toList)))

/-- A head and the suite below it. -/
def headed (indent head : String) (statements : List String) : String :=
  head ++ ":\n" ++ suite indent statements

/-- The text of a constant. -/
def constantText : Literal → String
  | .none => "None"
  | .bool value => if value then "True" else "False"
  | .int value => toString value
  | .float value => Style.source.text value
  | .str value => Text.quote value

/-- A text followed by the name that it is bound to. -/
def withAlias (text : String) : Option String → String
  | some asName => text ++ " as " ++ asName
  | none => text

/-- Expressions one after another. -/
def listing (items : List String) : String :=
  ", ".intercalate items

/-- Expressions in parentheses. A single one keeps a comma, which makes it a tuple. -/
def tuple : List String → String
  | [single] => "(" ++ single ++ ",)"
  | items => "(" ++ listing items ++ ")"

/-- Each operator with the operand after it. -/
def links : List Comparison → List String → String
  | op :: ops, operand :: operands => " " ++ op.symbol ++ " " ++ operand ++ links ops operands
  | _, _ => ""

/-- Whether a tree is an `if` statement. -/
def isIf {m : Type → Type} (visit : Visit m String) : Bool :=
  visit.node.kind = .ifStmt

/-- What each node is rendered as, where a level is `indent` deep. -/
def rule {m : Type → Type} [Monad m] (indent : String) : Rule m String := fun _ node => do
  let headed := headed indent
  match node with
  | .moduleDef body => return some (String.join ((← runAll body).map (· ++ "\n")))
  | .functionDef name params body =>
    return some (headed ("def " ++ name ++ "(" ++ listing params ++ ")") (← runAll body))
  | .returnStmt none => return some "return"
  | .returnStmt (some value) => return some ("return " ++ (← value.run))
  | .assign target value =>
    let target ← target.run
    return some (target ++ " = " ++ (← value.run))
  | .augAssign target op value =>
    let target ← target.run
    return some (target ++ " " ++ op.symbol ++ "= " ++ (← value.run))
  | .exprStmt value => return some (← value.run)
  | .ifStmt test body orelse =>
    let test ← test.run
    let branch := headed ("if " ++ test) (← runAll body)
    match orelse with
    | [] => return some branch
    | [single] =>
      -- A condition that stands alone in an `else` continues the chain of conditions.
      let single' ← single.run
      if isIf single then return some (branch ++ "\nel" ++ single')
      else return some (branch ++ "\n" ++ headed "else" [single'])
    | orelse => return some (branch ++ "\n" ++ headed "else" (← runAll orelse))
  | .whileLoop test body =>
    let test ← test.run
    return some (headed ("while " ++ test) (← runAll body))
  | .forLoop target iter body =>
    let target ← target.run
    let iter ← iter.run
    return some (headed ("for " ++ target ++ " in " ++ iter) (← runAll body))
  | .passStmt => return some "pass"
  | .breakStmt => return some "break"
  | .continueStmt => return some "continue"
  | .tryStmt body handlers finalbody =>
    let body := headed "try" (← runAll body)
    let clauses ← handlers.mapM fun handler => do
      let exception ← handler.exception.toList.mapM Visit.run
      let head := withAlias (String.join ("except" :: exception.map (" " ++ ·))) handler.name
      return headed head (← runAll handler.body)
    let finalbody ← runAll finalbody
    let last := if finalbody.isEmpty then [] else [headed "finally" finalbody]
    return some ("\n".intercalate (body :: clauses ++ last))
  | .withStmt items body =>
    let items ← items.mapM fun item => return withAlias (← item.context.run) item.asName
    return some (headed ("with " ++ listing items) (← runAll body))
  | .raiseStmt none => return some "raise"
  | .raiseStmt (some exception) => return some ("raise " ++ (← exception.run))
  | .classDef name bases body =>
    let bases ← runAll bases
    let head := if bases.isEmpty then "class " ++ name
      else "class " ++ name ++ "(" ++ listing bases ++ ")"
    return some (headed head (← runAll body))
  | .importStmt source names =>
    let names := listing (names.map fun name => withAlias name.name name.asName)
    match source with
    | some source => return some ("from " ++ source ++ " import " ++ names)
    | none => return some ("import " ++ names)
  | .ident id => return some id
  | .constant value => return some (constantText value)
  | .binOp left op right =>
    let left ← left.run
    return some ("(" ++ left ++ " " ++ op.symbol ++ " " ++ (← right.run) ++ ")")
  | .unaryOp op operand =>
    let operand ← operand.run
    let blank := if op = .not then " " else ""
    return some ("(" ++ op.symbol ++ blank ++ operand ++ ")")
  | .compare left ops comparators =>
    let left ← left.run
    -- An operand without an operator before it is left out.
    let operands ← runAll (comparators.take ops.length)
    return some ("(" ++ left ++ links ops operands ++ ")")
  | .boolOp op values =>
    return some ("(" ++ (" " ++ op.symbol ++ " ").intercalate (← runAll values) ++ ")")
  | .call func args keywords =>
    let args ← runAll args
    let keywords ← keywords.mapM fun keyword => return keyword.name ++ "=" ++ (← keyword.value.run)
    return some ((← func.run) ++ "(" ++ listing (args ++ keywords) ++ ")")
  | .attr value name => return some ((← value.run) ++ "." ++ name)
  | .subscript value index =>
    let value ← value.run
    let index ← match index.node with
      | .tuple (first :: rest) => listing <$> runAll (first :: rest)
      | _ => index.run
    return some (value ++ "[" ++ index ++ "]")
  | .slice lower upper step =>
    let lower ← runOr "" lower
    let upper ← runOr "" upper
    let step ← step.toList.mapM Visit.run
    return some (lower ++ ":" ++ upper ++ String.join (step.map (":" ++ ·)))
  | .list items => return some ("[" ++ listing (← runAll items) ++ "]")
  | .tuple items => return some (tuple (← runAll items))
  | .dict entries =>
    let entries ← entries.mapM fun (key, value) => do
      let key ← key.run
      return key ++ ": " ++ (← value.run)
    return some ("\x7b" ++ listing entries ++ "\x7d")
  | .ifExp test body orelse =>
    let body ← body.run
    let test ← test.run
    return some ("(" ++ body ++ " if " ++ test ++ " else " ++ (← orelse.run) ++ ")")
  | .lambda params body =>
    let body ← body.run
    let head := if params.isEmpty then "lambda" else "lambda " ++ listing params
    return some ("(" ++ head ++ ": " ++ body ++ ")")

/-- The state of a rendition. -/
structure State where
  /-- The blanks of one level. -/
  indent : String
  /-- The text of the last tree rendered in full. -/
  output : String

/-- The rendition with its state. -/
def renderer : Renderer State String where
  create _ config := ⟨String.ofList (List.replicate config.width ' '), ""⟩
  fragment tree := do tree.render (rule (← get).indent)
  keep text state := { state with output := text }
  shown := State.output
  fragmentText := id

end Rendition.Python
