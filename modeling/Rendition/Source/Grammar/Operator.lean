import Rendition.Operator
import Rendition.Source.Grammar.Words

/-!
# Precedence

Operators bind more or less tightly. A level is a bound: an expression of a level is made with
operators of that level or tighter ones. Exclusive or binds tighter than the conjunction of bits
here.

## Main definitions

* `Level`: The levels as numbers, loosest first.
* `Operator.level`: The level of an expression made with an operator.
* `Token.binary?`, `Token.unary?`, `Token.augmented?`: Tokens as operators.
-/

namespace Rendition

namespace Source

namespace Level

/-- Any expression. -/
def any : Nat := 0

/-- `body if test else orelse` -/
def conditional : Nat := 1

/-- What a comprehension goes through: the body of a `lambda` is of this level, too. -/
def iterable : Nat := 2

/-- `value as alias` -/
def aliased : Nat := 3

/-- Disjunctions. -/
def disjunction : Nat := 4

/-- Conjunctions. -/
def conjunction : Nat := 5

/-- `not operand` -/
def negation : Nat := 6

/-- Comparisons. -/
def comparison : Nat := 7

/-- Operands of comparisons, the first level of arithmetic. -/
def operand : Nat := 8

/-- Powers. -/
def power : Nat := 15

/-- Names, literals, brackets, and what can follow them directly. -/
def primary : Nat := 16

end Level

end Source

/-- The level of an expression made with the operator. -/
def Operator.level : Operator → Nat
  | .bitOr => Source.Level.operand
  | .bitAnd => 9
  | .bitXor => 10
  | .lShift | .rShift => 11
  | .add | .sub => 12
  | .mult | .matMult | .div | .floorDiv | .mod => 13
  | .pow => Source.Level.power

/-- The level at which the right operand is read. Powers associate to the right, everything else
    to the left. -/
def Operator.rightLevel (op : Operator) : Nat :=
  match op with
  | .pow => op.level
  | _ => op.level + 1

namespace Source.Token

/-- The token as an operator between operands. -/
def binary? (t : Token) : Option Operator :=
  if t.kind = .mark then Operator.all.find? fun op => op.symbol == t.text else none

/-- The token as an operator before an operand. -/
def unary? (t : Token) : Option UnaryOperator :=
  if t.kind = .mark then UnaryOperator.all.find? fun op => op.symbol == t.text else none

/-- The operator of the augmented assignment that the token stands for. -/
def augmented? (t : Token) : Option Operator :=
  if t.kind = .mark then Operator.all.find? fun op => op.symbol ++ "=" == t.text else none

end Source.Token

namespace Source

/-- The comparison operators that are marks. -/
def comparisonMarks : List String :=
  ["<", "<=", "==", "!=", ">=", ">", "<>"]

/-- Take a comparison operator, if one is at the front. -/
def comparisonOperator? (f : Frame) : Parser (Option String) := do
  let t ← peek
  if t.kind = .mark && comparisonMarks.contains t.text then
    discard (shiftOperator f.middle)
    return some t.text
  else if t.isWord "in" then
    discard (shiftOperator f.middle)
    return some t.text
  else if t.isWord "not" then
    let ((), text) ← covered do
      discard (shift f.middle)
      discard (word f.middle "in")
    return some text
  else if t.isWord "is" then
    let ((), text) ← covered do
      discard (shiftOperator f.middle)
      if ← atWord "not" then discard (shiftOperator f.middle)
    return some text
  else return none

end Source

end Rendition
