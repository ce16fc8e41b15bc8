import Rendition.Span

/-!
# Failures of reading

Why a source text has no syntax tree, or why a function was not found in it.

## Main definitions

* `ReadError`: The causes.
* `ReadError.message`: Their wording.
-/

namespace Rendition

/-- Why reading a source text failed. -/
inductive ReadError where
  /-- The text is malformed, in the way that `reason` says. -/
  | parse (reason : String)
  /-- A construct has no counterpart among syntax trees. -/
  | unsupported (construct : String) (span : Span)
  /-- A tree has another kind of node than expected. -/
  | unexpectedNode (expected got : String)
  | functionNotFound (name : String)
  deriving DecidableEq

namespace ReadError

/-- The text does not follow the grammar. -/
def syntaxError : ReadError :=
  .parse "syntax error in source"

/-- A string literal is not between quotes. -/
def malformedString (text : String) : ReadError :=
  .parse ("malformed string: " ++ text)

/-- A comparison is written with an operator that trees do not have. -/
def unknownComparison (op : String) : ReadError :=
  .parse ("unknown comparison op: " ++ op)

/-- Something stands among the parts of a conditional expression. -/
def conditionalParts : ReadError :=
  .parse "conditional_expression needs 3 parts"

/-- The wording of the failure. -/
def message : ReadError → String
  | parse reason => "parse error: " ++ reason
  | unsupported construct span => "unsupported syntax at " ++ span.text ++ ": " ++ construct
  | unexpectedNode expected got => "expected " ++ expected ++ ", got " ++ got
  | functionNotFound name => "no function named `" ++ name ++ "` in source"

end ReadError

end Rendition
