import Rendition.Text.Blank

/-!
# Operators

The operators of the source language, each with its symbol. Reading a symbol back is a search in
the list of all operators, so the tables are written once.

## Main definitions

* `Operator`: Arithmetic and bitwise operators, also used by augmented assignments.
* `UnaryOperator`: Operators with one operand.
* `Comparison`: Comparison operators, two of which are written in two words.
* `Connective`: The connectives `and` and `or`.
-/

namespace Rendition

/-- Binary arithmetic and bitwise operators. -/
inductive Operator where
  | add | sub | mult | matMult | div | floorDiv | mod | pow
  | lShift | rShift | bitOr | bitXor | bitAnd
  deriving DecidableEq

namespace Operator

/-- All operators. -/
def all : List Operator :=
  [add, sub, mult, matMult, div, floorDiv, mod, pow, lShift, rShift, bitOr, bitXor, bitAnd]

/-- The operator as it is written between its operands. -/
def symbol : Operator → String
  | add => "+"
  | sub => "-"
  | mult => "*"
  | matMult => "@"
  | div => "/"
  | floorDiv => "//"
  | mod => "%"
  | pow => "**"
  | lShift => "<<"
  | rShift => ">>"
  | bitOr => "|"
  | bitXor => "^"
  | bitAnd => "&"

/-- The name of the operator in serialized trees. -/
def name : Operator → String
  | add => "Add"
  | sub => "Sub"
  | mult => "Mult"
  | matMult => "MatMult"
  | div => "Div"
  | floorDiv => "FloorDiv"
  | mod => "Mod"
  | pow => "Pow"
  | lShift => "LShift"
  | rShift => "RShift"
  | bitOr => "BitOr"
  | bitXor => "BitXor"
  | bitAnd => "BitAnd"

/-- A symbol without the equals sign that makes it an augmented assignment. -/
def plainSymbol (symbol : String) : String :=
  let chars := symbol.toList
  if chars.getLast? = some '=' then String.ofList chars.dropLast else symbol

/-- The operator written as `symbol`, which may carry the `=` of an augmented assignment. -/
def ofSymbol? (symbol : String) : Option Operator :=
  all.find? fun op => op.symbol == plainSymbol symbol

/-- The operator of that name. -/
def ofName? (name : String) : Option Operator :=
  all.find? fun op => op.name == name

end Operator

/-- Operators with one operand. -/
inductive UnaryOperator where
  | invert | not | uAdd | uSub
  deriving DecidableEq

namespace UnaryOperator

/-- All unary operators. -/
def all : List UnaryOperator :=
  [invert, not, uAdd, uSub]

/-- The operator as it is written before its operand. -/
def symbol : UnaryOperator → String
  | invert => "~"
  | not => "not"
  | uAdd => "+"
  | uSub => "-"

/-- The name of the operator in serialized trees. -/
def name : UnaryOperator → String
  | invert => "Invert"
  | not => "Not"
  | uAdd => "UAdd"
  | uSub => "USub"

/-- The operator written as `symbol`. -/
def ofSymbol? (symbol : String) : Option UnaryOperator :=
  all.find? fun op => op.symbol == symbol

/-- The operator of that name. -/
def ofName? (name : String) : Option UnaryOperator :=
  all.find? fun op => op.name == name

end UnaryOperator

/-- Comparison operators. -/
inductive Comparison where
  | eq | notEq | lt | ltE | gt | gtE | is | isNot | isIn | notIn
  deriving DecidableEq

namespace Comparison

/-- All comparison operators. -/
def all : List Comparison :=
  [eq, notEq, lt, ltE, gt, gtE, is, isNot, isIn, notIn]

/-- The words of the operator. -/
def words : Comparison → List String
  | eq => ["=="]
  | notEq => ["!="]
  | lt => ["<"]
  | ltE => ["<="]
  | gt => [">"]
  | gtE => [">="]
  | is => ["is"]
  | isNot => ["is", "not"]
  | isIn => ["in"]
  | notIn => ["not", "in"]

/-- The operator as it is written, its words one blank apart. -/
def symbol (op : Comparison) : String :=
  " ".intercalate op.words

/-- The name of the operator in serialized trees. -/
def name : Comparison → String
  | eq => "Eq"
  | notEq => "NotEq"
  | lt => "Lt"
  | ltE => "LtE"
  | gt => "Gt"
  | gtE => "GtE"
  | is => "Is"
  | isNot => "IsNot"
  | isIn => "In"
  | notIn => "NotIn"

/-- The operator written as `symbol`, with any white space around and between its words. -/
def ofSymbol? (symbol : String) : Option Comparison :=
  let found := (Text.words symbol.toList).map String.ofList
  all.find? fun op => op.words == found

/-- The operator of that name. -/
def ofName? (name : String) : Option Comparison :=
  all.find? fun op => op.name == name

end Comparison

/-- The connectives of a chain of conditions. -/
inductive Connective where
  | and | or
  deriving DecidableEq

namespace Connective

/-- Both connectives. -/
def all : List Connective :=
  [and, or]

/-- The connective as it is written between its operands. -/
def symbol : Connective → String
  | and => "and"
  | or => "or"

/-- The name of the connective in serialized trees. -/
def name : Connective → String
  | and => "And"
  | or => "Or"

/-- The connective of that name. -/
def ofName? (name : String) : Option Connective :=
  all.find? fun op => op.name == name

end Connective

end Rendition
