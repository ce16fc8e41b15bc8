import Rendition.Decimal.Read
import Rendition.Source.Error
import Rendition.Text.Quoted
import Rendition.Word

/-!
# Values of literals

What the literals of a source text denote. Underscores between digits mean nothing. An integer has
to fit into a signed word of 64 bits, and marks of long or imaginary numbers have no counterpart.

## Main definitions

* `integerValue?`: The value of an integer literal.
* `floatValue?`: The value of a floating-point literal.
* `stringValue`: The text that a string literal denotes.
-/

namespace Rendition.Source

/-- The value of a digit, letters continuing the decimal digits. -/
def digitValue (c : Char) : Nat :=
  if c.isDigit then c.toNat - '0'.toNat else c.toLower.toNat - 'a'.toNat + 10

/-- The value of a run of digits of a base. -/
def digitsValue? (base : Nat) (digits : List Char) : Option Nat :=
  if digits ≠ [] ∧ digits.all fun c => c.isAlphanum && digitValue c < base then
    some (digits.foldl (fun n c => base * n + digitValue c) 0)
  else none

/-- The characters of a number without underscores. -/
def ungrouped (text : String) : List Char :=
  text.toList.filter (· ≠ '_')

/-- The value of an integer literal, if it fits into a signed word of 64 bits. -/
def integerValue? (text : String) : Option Int := do
  let value ← match (ungrouped text).map Char.toLower with
    | '0' :: 'x' :: digits => digitsValue? 16 digits
    | '0' :: 'o' :: digits => digitsValue? 8 digits
    | '0' :: 'b' :: digits => digitsValue? 2 digits
    | digits => digitsValue? 10 digits
  if value < Word.signedBound then some value else none

/-- The value of a floating-point literal. -/
def floatValue? (text : String) : Option Float :=
  (Decimal.ofText? (ungrouped text)).map Decimal.toFloat

/-- The text without the given beginning and end, if it has both without overlap. -/
def stripEnds? (mark text : List Char) : Option (List Char) :=
  if mark.isPrefixOf text then
    let rest := text.drop mark.length
    if mark.isSuffixOf rest then some (rest.take (rest.length - mark.length)) else none
  else none

/-- The text that a string literal denotes. Format strings and strings of bytes denote none. -/
def stringValue (span : Span) (text : String) : Except ReadError String :=
  let isQuote (c : Char) : Bool := c = '"' || c = '\''
  let letters := (text.toList.takeWhile fun c => !isQuote c).map Char.toLower
  let quoted := text.toList.drop letters.length
  match quoted with
  | [] => .error (.malformedString text)
  | q :: rest =>
    if letters.contains 'f' ∨ letters.contains 'b' then .error (.unsupported "string" span)
    else
      let mark := if rest.take 2 = [q, q] then [q, q, q] else [q]
      match stripEnds? mark quoted with
      | none => .error (.malformedString text)
      | some body =>
        .ok (String.ofList (if letters.contains 'r' then body else Text.unescape body))

end Rendition.Source
