/-!
# Literal values

The constants that a syntax tree can hold. Numbers are compared as numbers: two zeros of
different sign agree and a value that is not a number agrees with nothing.

## Main definitions

* `Literal`: A constant.
* `Literal.agree`: Equality of constants as values.
-/

namespace Rendition

/-- A constant of the source language. -/
inductive Literal where
  | none
  | bool (value : Bool)
  | int (value : Int)
  | float (value : Float)
  | str (value : String)

namespace Literal

/-- Equality of constants, floats being compared as numbers. -/
def agree : Literal → Literal → Bool
  | .none, .none => true
  | bool a, bool b => a == b
  | int a, int b => a == b
  | float a, float b => a == b
  | str a, str b => a == b
  | _, _ => false

end Literal

end Rendition
