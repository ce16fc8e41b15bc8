import Rendition.Source.Concrete
import Rendition.Source.Constant
import Rendition.Tree.Basic

/-!
# From concrete syntax to trees

What can be read is turned into a syntax tree. Where a construct has no counterpart, reading fails
and names the first such construct, in an order that mostly follows the source. Comments and types
are gone already; parentheses, decorators and line continuations leave nothing behind where they
can stand.

## Main definitions

* `Expr.read`: The tree of an expression.
* `Expr.readTarget`: The tree of a target of an assignment.
* `Stmt.read`: The tree of a statement.
-/

namespace Rendition.Source

/-- The failure of a construct that has no counterpart. -/
def Expr.unsupported (e : Expr) : ReadError :=
  .unsupported e.construct e.span

/-- Fail where a line continuation stands among the parts of a construct. -/
def uncontinued : Option Span → Except ReadError Unit
  | none => .ok ()
  | some span => .error (.unsupported "line_continuation" span)

/-- The name of a parameter. -/
def Param.read : Param → Except ReadError String
  | .named name => .ok name
  | .other span construct => .error (.unsupported construct span)

/-- The tree of an integer literal. -/
def readInteger (span : Span) (text : String) : Except ReadError Tree :=
  match integerValue? text with
  | some value => .ok (.mk span (.constant (.int value)))
  | none => .error (.unsupported "integer" span)

/-- The tree of a floating-point literal. -/
def readFloat (span : Span) (text : String) : Except ReadError Tree :=
  match floatValue? text with
  | some value => .ok (.mk span (.constant (.float value)))
  | none => .error (.unsupported "float" span)

/-- The bounds of a slice, from its parts with `none` for every colon. -/
def bounds : List (Option Tree) → List (Option Tree)
  | [] => [none]
  | none :: rest => none :: bounds rest
  | some t :: rest =>
    match bounds rest with
    | none :: more => some t :: more
    | more => more

/-- The operator of a comparison. -/
def readComparison (op : String) : Except ReadError Comparison :=
  match Comparison.ofSymbol? op with
  | some comparison => .ok comparison
  | none => .error (.unknownComparison op)

/-- What a connective joins, where a left side that the same connective makes joins in. -/
def joined (op : Connective) (left : Expr) (tree : Tree) : List Tree :=
  match left, tree.node with
  | .boolean .., .boolOp inner values => if inner = op then values else [tree]
  | _, _ => [tree]

namespace Expr

mutual

/-- The tree of an expression. -/
def read : Expr → Except ReadError Tree
  | ident span name => .ok (.mk span (.ident name))
  | integer span text => readInteger span text
  | float span text => readFloat span text
  | string span text => do
    return .mk span (.constant (.str (← stringValue span text)))
  | strings span literals => do
    let texts ← literals.mapM fun literal => stringValue literal.1 literal.2
    return .mk span (.constant (.str (String.join texts)))
  | truth span value => .ok (.mk span (.constant (.bool value)))
  | nothing span => .ok (.mk span (.constant .none))
  | unary span op operand => do
    return .mk span (.unaryOp op (← operand.read))
  | negation span operand => do
    return .mk span (.unaryOp .not (← operand.read))
  | binary span left op right => do
    let left ← left.read
    return .mk span (.binOp left op (← right.read))
  | boolean span left op right => do
    let tree ← left.read
    return .mk span (.boolOp op (joined op left tree ++ [← right.read]))
  | comparison span left link links => do
    let left ← left.read
    let (op, operand) ← readLink link
    let rest ← readLinks links
    return .mk span (.compare left (op :: rest.map Prod.fst) (operand :: rest.map Prod.snd))
  | conditional span continued body test orelse => do
    if continued then throw .conditionalParts
    -- The condition is read first, although it is written second.
    let test ← test.read
    let body ← body.read
    return .mk span (.ifExp test body (← orelse.read))
  | lambda span params body => do
    let params ← params.mapM Param.read
    return .mk span (.lambda params (← body.read))
  | attr span object name => do
    return .mk span (.attr (← object.read) name)
  | subscript span object index indices => do
    let object ← object.read
    let first ← index.read
    match ← readAll indices with
    | [] => return .mk span (.subscript object first)
    | rest => return .mk span (.subscript object (.mk index.span (.tuple (first :: rest))))
  | slice span parts => do
    let bounds := bounds (← readParts parts)
    let bound (i : Nat) : Option Tree := bounds[i]?.join
    return .mk span (.slice (bound 0) (bound 1) (bound 2))
  | call span func args => do
    -- The arguments are read before what is called.
    let args ← readArguments args
    return .mk span (.call (← func.read) args.1 args.2)
  | generatorCall _ argument => .error (.unsupported "generator_expression" argument)
  | list span items => do
    return .mk span (.list (← readAll items))
  | tuple span items => do
    return .mk span (.tuple (← readAll items))
  | sequence span items => do
    return .mk span (.tuple (← readAll items))
  | parens _ item _ => item.read
  | dict span entries => do
    return .mk span (.dict (← readEntries entries))
  | aliased span value name => .error (aliased span value name).unsupported
  | splat span argument => .error (splat span argument).unsupported
  | continuation span text => .error (continuation span text).unsupported
  | other span construct => .error (other span construct).unsupported

/-- The trees of expressions in order. -/
def readAll : List Expr → Except ReadError (List Tree)
  | [] => .ok []
  | e :: rest => do
    let tree ← e.read
    return tree :: (← readAll rest)

/-- An operator of a chain of comparisons with the operand after it. -/
def readLink : Link Expr → Except ReadError (Comparison × Tree)
  | ⟨before, op, after, operand⟩ => do
    uncontinued before
    let op ← readComparison op
    uncontinued after
    return (op, ← operand.read)

/-- The operators of a chain of comparisons with the operands after them. -/
def readLinks : List (Link Expr) → Except ReadError (List (Comparison × Tree))
  | [] => .ok []
  | link :: rest => do
    let first ← readLink link
    return first :: (← readLinks rest)

/-- The arguments of a call: those without a name, and those with one. -/
def readArguments :
    List (Option String × Expr) → Except ReadError (List Tree × List (Keyword Tree))
  | [] => .ok ([], [])
  | (name, e) :: rest => do
    let tree ← e.read
    let (args, keywords) ← readArguments rest
    match name with
    | none => return (tree :: args, keywords)
    | some name => return (args, ⟨name, tree⟩ :: keywords)

/-- The entries of a dictionary. -/
def readEntries : List (Expr × Option Expr) → Except ReadError (List (Tree × Tree))
  | [] => .ok []
  | (key, none) :: _ => .error key.unsupported
  | (key, some value) :: rest => do
    let key ← key.read
    let value ← value.read
    return (key, value) :: (← readEntries rest)

/-- The parts of a slice, colons being `none`. -/
def readParts : List (Option Expr) → Except ReadError (List (Option Tree))
  | [] => .ok []
  | none :: rest => do
    return none :: (← readParts rest)
  | some e :: rest => do
    let tree ← e.read
    return some tree :: (← readParts rest)

end

mutual

/-- The tree of a target of an assignment. Parentheses make a tuple of it. -/
def readTarget : Expr → Except ReadError Tree
  | sequence span items => do
    return .mk span (.tuple (← readTargets items))
  | tuple span items => do
    return .mk span (.tuple (← readTargets items))
  | parens span item items => do
    let first ← item.readTarget
    return .mk span (.tuple (first :: (← readTargets items)))
  | list span items => do
    return .mk span (.list (← readTargets items))
  | splat span _ => .error (.unsupported "list_splat_pattern" span)
  | e => e.read

/-- The trees of targets in order. -/
def readTargets : List Expr → Except ReadError (List Tree)
  | [] => .ok []
  | e :: rest => do
    let tree ← e.readTarget
    return tree :: (← readTargets rest)

end

/-- The tree of an optional expression. -/
def readOptional : Option Expr → Except ReadError (Option Tree)
  | none => .ok none
  | some e => some <$> e.read

end Expr

/-- An item of a `with` statement. -/
def readItem : Expr → Except ReadError (WithItem Tree)
  | .aliased _ value name => do
    return ⟨← value.read, some name⟩
  | e => do
    return ⟨← e.read, none⟩

/-- What an `except` clause catches and the name it gives to it, after what came before. -/
def readCaught : Option Tree × Option String → List Caught →
    Except ReadError (Option Tree × Option String)
  | result, [] => .ok result
  | (exception, name), ⟨e, text⟩ :: rest =>
    match e, exception, name with
    | .aliased _ value asName, _, _ => do
      readCaught (some (← value.read), some asName) rest
    | e, none, name => do
      readCaught (some (← e.read), name) rest
    | _, some exception, none => readCaught (some exception, some text) rest
    | e, some _, some _ => .error e.unsupported

mutual

/-- The tree of a statement. -/
def Stmt.read : Stmt → Except ReadError Tree
  | .expression span value => do
    return .mk span (.exprStmt (← value.read))
  | .assign span target value =>
    match value with
    | none => .error (.unsupported "assignment" span)
    | some (.other inner "assignment") => .error (.unsupported "assignment" inner)
    | some value => do
      let target ← target.readTarget
      return .mk span (.assign target (← value.read))
  | .augAssign span target op value => do
    let target ← target.readTarget
    return .mk span (.augAssign target op (← value.read))
  | .functionDef span name params body => do
    let params ← params.mapM Param.read
    return .mk span (.functionDef name params (← readSuite body))
  | .classDef span name bases body => do
    let body ← readSuite body
    match bases with
    | none => return .mk span (.classDef name [] body)
    | some (list, args) =>
      match ← Expr.readArguments args with
      | (bases, []) => return .mk span (.classDef name bases body)
      | _ => throw (.unsupported "argument_list" list)
  | .ifStmt span test body branches => do
    let test ← test.read
    let body ← readSuite body
    return .mk span (.ifStmt test body (← readBranches branches))
  | .whileLoop span test body orelse => do
    if let some place := orelse then throw (.unsupported "else_clause" place)
    let test ← test.read
    return .mk span (.whileLoop test (← readSuite body))
  | .forLoop span target iter body orelse => do
    if let some place := orelse then throw (.unsupported "else_clause" place)
    let target ← target.readTarget
    let iter ← iter.read
    return .mk span (.forLoop target iter (← readSuite body))
  | .tryStmt span body clauses => do
    let body ← readSuite body
    let (handlers, final) ← readClauses clauses
    return .mk span (.tryStmt body handlers final)
  | .withStmt span item items body => do
    -- The suite is read before the items, so what is wrong in it is named first.
    let body ← readSuite body
    let first ← readItem item
    let rest ← items.mapM readItem
    return .mk span (.withStmt (first :: rest) body)
  | .returnStmt span value => do
    return .mk span (.returnStmt (← Expr.readOptional value))
  | .raiseStmt span exception caused => do
    if caused then throw (.unsupported "raise_statement" span)
    return .mk span (.raiseStmt (← Expr.readOptional exception))
  | .importStmt span source name names => .ok (.mk span (.importStmt source (name :: names)))
  | .passStmt span => .ok (.mk span .passStmt)
  | .breakStmt span => .ok (.mk span .breakStmt)
  | .continueStmt span => .ok (.mk span .continueStmt)
  | .other span construct => .error (.unsupported construct span)

/-- The trees of the statements of a suite. -/
def readSuite : List Stmt → Except ReadError (List Tree)
  | [] => .ok []
  | s :: rest => do
    let tree ← s.read
    return tree :: (← readSuite rest)

/-- The statements of the branches that are taken when a condition does not hold. Later branches
    are read first. -/
def readBranches : List Branch → Except ReadError (List Tree)
  | [] => .ok []
  | .elifBranch span test body :: rest => do
    let orelse ← readBranches rest
    let test ← test.read
    return [.mk span (.ifStmt test (← readSuite body) orelse)]
  | .elseBranch body :: rest => do
    discard (readBranches rest)
    readSuite body

/-- The handlers of a `try` statement and its final suite. -/
def readClauses : List Clause → Except ReadError (List (Handler Tree) × List Tree)
  | [] => .ok ([], [])
  | .except span caught body :: rest => do
    let (exception, name) ← readCaught (none, none) caught
    let body ← readSuite body
    let (handlers, final) ← readClauses rest
    return (⟨span, exception, name, body⟩ :: handlers, final)
  | .finally body :: rest => do
    let body ← readSuite body
    let (handlers, final) ← readClauses rest
    return (handlers, if final.isEmpty then body else final)
  | .other span construct :: _ => .error (.unsupported construct span)

end

end Rendition.Source
