import Rendition.Source.Grammar.Bracket
import Rendition.Source.Grammar.Literal

/-!
# Expressions

Expressions by precedence. Each definition is open in the expressions inside it; `expressionAt`
ties them together. An expression inside another one starts behind a token of the outer one, so the
number of tokens bounds the nesting.

## Main definitions

* `operand`: Arithmetic.
* `loose`: Comparisons, boolean operators, conditional expressions and what else binds as loosely.
* `expressionAt`: Expressions of a level.
-/

namespace Rendition.Source

/-! ## Operands -/

/-- Names, literals and brackets. -/
def atom (expr : ExprParser) (f : Frame) : Parser Expr := do
  let t ← peek
  match t.kind with
  | .word =>
    if t.text == "True" || t.text == "False" then
      discard (shift f)
      return .truth t.span (t.text == "True")
    else if t.text == "None" then
      discard (shift f)
      return .nothing t.span
    else
      require (isVariable t.text)
      discard (shift f)
      return .ident t.span t.text
  | .integer =>
    discard (shift f)
    return .integer t.span t.text
  | .float =>
    discard (shift f)
    return .float t.span t.text
  | .string | .formatOpen => literals expr f
  | .mark =>
    if t.text == "(" then parenthesized expr f
    else if t.text == "[" then bracketed expr f
    else if t.text == "\x7b" then braced expr f
    else if t.text == "..." then
      discard (shift f)
      return .other t.span "ellipsis"
    else failure
  | _ => failure

/-- An attribute, a call or a subscript of what came before, if one follows. -/
def trailer (expr : ExprParser) (f : Frame) (e : Expr) : Parser (Option Expr) := do
  if ← mark? f.middle "." then
    let name ← identifier f
    return some (.attr e.span e name.text)
  else if ← atMark "(" then
    match ← arguments expr f with
    | (_, some args) => return some (.call e.span e args)
    | (argument, none) => return some (.generatorCall e.span argument)
  else if ← atMark "[" then
    let (index, others) ← indices expr f
    return some (.subscript e.span e index others)
  else return none

/-- An operand without binary operators outside brackets. -/
def signed (expr : ExprParser) (f : Frame) : Parser Expr := do
  let t ← peek
  match t.unary? with
  | some op =>
    discard (shiftOperator f.middle)
    return .unary t.span op (← expr f Level.power)
  | none =>
    if t.isMark "*" then
      discard (shiftOperator f.middle)
      let e ← expr f Level.primary
      match e.splatted? t.span with
      | some e => return e
      | none => failure
    else if t.isWord "await" then
      discard (shiftOperator f)
      if (← peek).startsOperand then
        discard (expr f Level.power)
        return .other t.span "await"
      -- Where no operand follows, the word is a name.
      else extend (trailer expr f) (.ident t.span t.text)
    else extend (trailer expr f) (← atom expr f)

/-- Arithmetic with operators of the given level or tighter ones. -/
def operand (expr : ExprParser) (f : Frame) (level : Nat) : Parser Expr := do
  let first ← signed expr f
  extend (fun left => do
    match (← peek).binary? with
    | some op =>
      -- An operator that binds too loosely is left to the expression around this one.
      if level ≤ op.level then
        discard (shiftOperator f.middle)
        return some (.binary left.span left op (← expr f op.rightLevel))
      else return none
    | none => return none) first

/-! ## What binds more loosely -/

/-- A chain of comparisons, or only an operand. -/
def comparison (expr : ExprParser) (f : Frame) : Parser Expr := do
  let left ← operand expr f Level.operand
  let links ← extend (fun links => do
    let before ← continued?
    match ← comparisonOperator? f with
    | some op =>
      let after ← continued?
      return some (links ++ [⟨before, op, after, ← operand expr f Level.operand⟩])
    | none => return none) ([] : List (Link Expr))
  match links with
  | [] => return left
  | link :: links => return .comparison left.span left link links

/-- An expression without boolean operators after it. -/
def clause (expr : ExprParser) (f : Frame) (level : Nat) : Parser Expr := do
  let t ← peek
  if t.isWord "lambda" then
    lambdaOf expr f (if level = Level.iterable then Level.iterable else Level.any)
  else if t.isWord "not" then
    discard (shiftOperator f.middle)
    return .negation t.span (← expr f Level.negation)
  else match ← comparison expr f with
    | .ident span name =>
      if ← mark? f.middle ":=" then
        discard (expr f Level.disjunction)
        return .other span "named_expression"
      else return .ident span name
    | e => return e

/-- A boolean operator, an alias or a condition after an expression, if one follows. -/
def looser (expr : ExprParser) (f : Frame) (level : Nat) (e : Expr) : Parser (Option Expr) := do
  if level ≤ Level.conjunction && (← atWord "and") then
    discard (shiftOperator f.middle)
    return some (.boolean e.span e .and (← expr f Level.negation))
  else if level ≤ Level.disjunction && (← atWord "or") then
    discard (shiftOperator f.middle)
    return some (.boolean e.span e .or (← expr f Level.conjunction))
  else if level ≤ Level.aliased && (← atWord "as") then
    discard (shiftOperator f.middle)
    let (_, text) ← covered (expr f Level.disjunction)
    return some (.aliased e.span e text)
  else if level ≤ Level.conditional && (← atWord "if") then
    let beforeIf ← continued?
    discard (shiftOperator f.middle)
    let beforeTest ← continued?
    let test ← expr f.middle Level.any
    let beforeElse ← continued?
    discard (word f.middle "else")
    let afterElse ← continued?
    let orelse ← expr f Level.conditional
    -- A line continued at any of these places counts as a part of the expression.
    let continued := [beforeIf, beforeTest, beforeElse, afterElse].any Option.isSome
    return some (.conditional e.span continued e test orelse)
  else return none

/-- An expression of a level up to comparisons. -/
def loose (expr : ExprParser) (f : Frame) (level : Nat) : Parser Expr := do
  extend (looser expr f level) (← clause expr f level)

/-- An expression of a level that is nested less than `fuel` deep. -/
def expressionAt : Nat → ExprParser
  | 0 => fun _ _ => failure
  | fuel + 1 => fun f level =>
    if level ≤ Level.comparison then loose (expressionAt fuel) f level
    else operand (expressionAt fuel) f level

end Rendition.Source
