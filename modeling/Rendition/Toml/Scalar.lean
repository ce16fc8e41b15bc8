import Rendition.Decimal.Read
import Rendition.Json.Basic
import Rendition.Word

/-!
# Numbers, truth values and moments

A value without quotes and brackets is a word of letters, digits and a few signs. Which word it is
decides what it denotes. Digits may be grouped by single underscores between them; an integer has
to fit into a signed word of 64 bits. Moments of time have no value of their own and stand for an
empty table.

## Main definitions

* `integer?`, `float?`: The numbers that words denote.
* `isMoment`: Whether a word denotes a date, a time or both.
* `scalar?`: The value of a word.
-/

namespace Rendition.Toml

/-- The digits of a run in which underscores stand only between digits. -/
def grouped? (isDigit : Char → Bool) : List Char → Option (List Char)
  | [] => none
  | [c] => if isDigit c then some [c] else none
  | c :: '_' :: rest =>
    if isDigit c then (grouped? isDigit rest).map fun digits => c :: digits else none
  | c :: rest => if isDigit c then (grouped? isDigit rest).map fun digits => c :: digits else none

/-- The value of a digit, letters continuing the decimal digits. -/
def digitValue (c : Char) : Nat :=
  if c.isDigit then c.toNat - '0'.toNat else c.toLower.toNat - 'a'.toNat + 10

/-- The value of a run of digits of a base. -/
def natural? (base : Nat) (text : List Char) : Option Nat :=
  (grouped? (fun c => c.isAlphanum && digitValue c < base) text).map fun digits =>
    digits.foldl (fun n c => base * n + digitValue c) 0

/-- The digits of a decimal number, which has no leading zero. -/
def decimalDigits? (text : List Char) : Option (List Char) :=
  match grouped? Char.isDigit text with
  | some ('0' :: _ :: _) => none
  | digits => digits

/-- A word without its sign, and whether the sign is a minus. -/
def signed (text : List Char) : Bool × List Char :=
  match text with
  | '-' :: rest => (true, rest)
  | '+' :: rest => (false, rest)
  | rest => (false, rest)

/-- The integer that a word denotes. -/
def integer? (text : List Char) : Option Int := do
  let value : Int ← match text with
    | '0' :: 'x' :: digits => (natural? 16 digits).map Int.ofNat
    | '0' :: 'o' :: digits => (natural? 8 digits).map Int.ofNat
    | '0' :: 'b' :: digits => (natural? 2 digits).map Int.ofNat
    | _ =>
      let (negative, digits) := signed text
      (decimalDigits? digits).map fun digits =>
        if negative then -(Decimal.natOfDigits digits : Int) else Decimal.natOfDigits digits
  if Word.isSigned value then some value else none

/-- The floating-point number that a word denotes. -/
def float? (text : List Char) : Option Float := do
  let (negative, magnitude) := signed text
  let isExponent (c : Char) : Bool := c = 'e' || c = 'E'
  let mantissa := magnitude.takeWhile fun c => !isExponent c
  let whole ← decimalDigits? (mantissa.takeWhile (· ≠ '.'))
  let fraction ← match mantissa.dropWhile (· ≠ '.') with
    | [] => some []
    | _ :: digits => (grouped? Char.isDigit digits).map fun digits => '.' :: digits
  let exponent ← match magnitude.dropWhile fun c => !isExponent c with
    | [] => some []
    | _ :: power =>
      let (negative, digits) := signed power
      (grouped? Char.isDigit digits).map fun digits =>
        if negative then 'e' :: '-' :: digits else 'e' :: digits
  if fraction = [] ∧ exponent = [] then none
  let value := (← Decimal.ofText? (whole ++ fraction ++ exponent)).toFloat
  if value.isInf then none
  return if negative then -value else value

/-! ## Moments -/

/-- The number in the next two characters, if it lies in a range, and the rest. -/
def twoDigits? (least greatest : Nat) : List Char → Option (Nat × List Char)
  | a :: b :: rest =>
    if a.isDigit ∧ b.isDigit then
      let n := Decimal.natOfDigits [a, b]
      if least ≤ n ∧ n ≤ greatest then some (n, rest) else none
    else none
  | _ => none

/-- The rest of a text that starts with the given character. -/
def after? (c : Char) : List Char → Option (List Char)
  | d :: rest => if d = c then some rest else none
  | [] => none

/-- The number of days of a month. -/
def daysOfMonth (year month : Nat) : Nat :=
  if month = 2 then
    if year % 4 = 0 ∧ (year % 100 ≠ 0 ∨ year % 400 = 0) then 29 else 28
  else if month = 4 ∨ month = 6 ∨ month = 9 ∨ month = 11 then 30
  else 31

/-- What follows the date at the start of a text. -/
def afterDate? (text : List Char) : Option (List Char) := do
  let (century, rest) ← twoDigits? 0 99 text
  let (year, rest) ← twoDigits? 0 99 rest
  let (month, rest) ← twoDigits? 1 12 (← after? '-' rest)
  let (_, rest) ← twoDigits? 1 (daysOfMonth (100 * century + year) month) (← after? '-' rest)
  return rest

/-- What follows the time of day at the start of a text. -/
def afterTime? (text : List Char) : Option (List Char) := do
  let (_, rest) ← twoDigits? 0 23 text
  let (_, rest) ← twoDigits? 0 59 (← after? ':' rest)
  let (_, rest) ← twoDigits? 0 60 (← after? ':' rest)
  match rest with
  | '.' :: fraction =>
    if (fraction.takeWhile Char.isDigit).isEmpty then none
    else return fraction.dropWhile Char.isDigit
  | _ => return rest

/-- Whether a text is nothing or the offset of a time zone. -/
def isOffset (text : List Char) : Bool :=
  match text with
  | [] | ['Z'] | ['z'] => true
  | sign :: rest =>
    (sign = '+' || sign = '-') && ((do
      let (_, rest) ← twoDigits? 0 23 rest
      let (_, rest) ← twoDigits? 0 59 (← after? ':' rest)
      return rest) == some [])

/-- Whether a word denotes a date, a time or both. -/
def isMoment (text : List Char) : Bool :=
  match afterDate? text with
  | some [] => true
  | some (delimiter :: rest) =>
    (delimiter = 'T' || delimiter = 't' || delimiter = ' ') && (match afterTime? rest with
      | some rest => isOffset rest
      | none => false)
  | none => afterTime? text == some []

/-! ## Words -/

/-- Whether a character can be part of a word. -/
def isWordChar (c : Char) : Bool :=
  c.isAlphanum || c = '_' || c = '+' || c = '-' || c = '.' || c = ':'

/-- The value of a word. -/
def word? (text : List Char) : Option Json :=
  if text = "true".toList then some (.bool true)
  else if text = "false".toList then some (.bool false)
  else if (signed text).2 = "inf".toList ∨ (signed text).2 = "nan".toList then
    some (.float (0.0 / 0.0))
  else match integer? text with
    | some value => some (.int value)
    | none => match float? text with
      | some value => some (.float value)
      | none => if isMoment text then some (.object []) else none

/-- The value of the word at the start of a text, and the rest. A blank may separate a date from a
    time. -/
def scalar? (text : List Char) : Option (Json × List Char) :=
  let word := text.takeWhile isWordChar
  let rest := text.dropWhile isWordChar
  let longer := match rest with
    | ' ' :: more => word ++ ' ' :: more.takeWhile isWordChar
    | _ => word
  if afterDate? word = some [] ∧ longer ≠ word ∧ isMoment longer then
    some (.object [], text.drop longer.length)
  else (word? word).map fun value => (value, rest)

end Rendition.Toml
