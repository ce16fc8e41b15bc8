import Rendition.Decimal.Shortest

/-!
# Reading decimals

The numbers denoted by texts of digits, with a point and an exponent or without.

## Main definitions

* `Decimal.natOfDigits`: The value of a run of digits.
* `Decimal.ofText?`: The decimal denoted by a text such as `12.5e-3`, `1.` or `.5`.
-/

namespace Rendition

namespace Decimal

/-- The value of a run of decimal digits. -/
def natOfDigits (digits : List Char) : Nat :=
  digits.foldl (fun n c => 10 * n + (c.toNat - '0'.toNat)) 0

/-- A run of digits with an optional sign. -/
def intOfText? (text : List Char) : Option Int :=
  let (sign, digits) : Int × List Char := match text with
    | '-' :: digits => (-1, digits)
    | '+' :: digits => (1, digits)
    | digits => (1, digits)
  if digits ≠ [] ∧ digits.all Char.isDigit then some (sign * natOfDigits digits) else none

/-- The number denoted by digits with an optional point among them and an optional exponent. -/
def ofText? (text : List Char) : Option Decimal :=
  let isExponent (c : Char) := c = 'e' || c = 'E'
  let mantissa := text.takeWhile fun c => !isExponent c
  let whole := mantissa.takeWhile fun c => c ≠ '.'
  let fraction := (mantissa.dropWhile fun c => c ≠ '.').drop 1
  let exponent? := match text.dropWhile fun c => !isExponent c with
    | [] => some 0
    | _ :: rest => intOfText? rest
  let digits := whole ++ fraction
  if digits ≠ [] ∧ digits.all Char.isDigit then
    exponent?.map fun exponent => ⟨natOfDigits digits, exponent - fraction.length⟩
  else none

end Decimal

end Rendition
