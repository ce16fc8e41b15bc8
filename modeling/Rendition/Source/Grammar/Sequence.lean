import Rendition.Source.Concrete
import Rendition.Source.Grammar.Operator

/-!
# Lists of expressions

Expressions separated by commas without brackets around them, and `yield`, which stands where such
a list can. The grammar of expressions is open here: `expr` reads an expression of a level in the
frame after it.

## Main definitions

* `ExprParser`: Parsers of expressions.
* `sequence`: One or more expressions.
* `targets`: One or more targets of an assignment.
* `yielded`: A `yield` expression.
-/

namespace Rendition.Source

/-- Parsers of expressions of a level, in the frame after the expression. -/
abbrev ExprParser := Frame → Nat → Parser Expr

/-- The line continuation as it stands among the parts of a construct. -/
def Continuation.toExpr (c : Continuation) : Expr :=
  .continuation c.span c.text

/-- One or more items separated by commas. One item without a comma stands for itself. -/
def sequenceOf (f : Frame) (starts : Token → Bool) (item : Parser Expr) : Parser Expr := do
  let span := (← peek).span
  match ← listed f "," Continuation.toExpr starts item with
  | ([single], false) => return single
  | (items, _) => return .sequence span items

/-- One or more expressions separated by commas. -/
def sequence (expr : ExprParser) (f : Frame) : Parser Expr :=
  sequenceOf f Token.startsExpression (expr f Level.any)

/-- One or more targets of an assignment separated by commas. -/
def targets (expr : ExprParser) (f : Frame) : Parser Expr := do
  let e ← sequenceOf f Token.startsOperand (expr f Level.primary)
  require e.isPattern
  return e

/-- A `yield` expression. -/
def yielded (expr : ExprParser) (f : Frame) : Parser Expr := do
  let t ← word f "yield"
  if ← atWord "from" then
    discard (shiftOperator f.middle)
    discard (expr f Level.any)
  else if (← peek).startsExpression then discard (sequence expr f)
  return .other t.span "yield"

/-- A `yield` expression or a list of expressions. -/
def yieldedOrSequence (expr : ExprParser) (f : Frame) : Parser Expr := do
  if ← atWord "yield" then yielded expr f else sequence expr f

end Rendition.Source
