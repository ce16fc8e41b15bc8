import Rendition.Decimal.Read
import Rendition.Json.Basic
import Rendition.Word

/-!
# Reading JSON texts

A text is read from left to right; each function returns what it read together with the rest of
the text. A number without point and exponent is an integer if it fits into 64 bits, a negative
zero and every other number is a floating-point number. Of members with one key the last counts.

## Main definitions

* `Json.parse?`: The value written in a text.
-/

namespace Rendition.Json

/-- The text after the white space at its start. -/
def skipBlank : List Char → List Char
  | c :: rest =>
    if c = ' ' ∨ c = '\n' ∨ c = '\t' ∨ c = '\r' then skipBlank rest else c :: rest
  | [] => []

/-- The value of a hexadecimal digit. -/
def hexDigit? (c : Char) : Option Nat :=
  if c.isDigit then some (c.toNat - '0'.toNat)
  else if 'a' ≤ c ∧ c ≤ 'f' then some (c.toNat - 'a'.toNat + 10)
  else if 'A' ≤ c ∧ c ≤ 'F' then some (c.toNat - 'A'.toNat + 10)
  else none

/-- The value of four hexadecimal digits. -/
def hexQuad? (a b c d : Char) : Option Nat := do
  return (((← hexDigit? a) * 16 + (← hexDigit? b)) * 16 + (← hexDigit? c)) * 16 + (← hexDigit? d)

/-- The character that a letter stands for after a backslash. -/
def escaped? : Char → Option Char
  | '"' => some '"'
  | '\\' => some '\\'
  | '/' => some '/'
  | 'b' => some (Char.ofNat 8)
  | 'f' => some (Char.ofNat 12)
  | 'n' => some '\n'
  | 'r' => some '\r'
  | 't' => some '\t'
  | _ => none

/-- The characters of a text up to its closing quote. Characters outside the basic plane may be
    written as two escapes; half of such a pair is refused. -/
def stringBody : Nat → List Char → Option (List Char × List Char)
  | 0, _ => none
  | _ + 1, '"' :: rest => some ([], rest)
  | fuel + 1, '\\' :: 'u' :: a :: b :: c :: d :: rest => do
    let unit ← hexQuad? a b c d
    -- The first half of a pair has to be followed by the second half.
    if 0xD800 ≤ unit ∧ unit < 0xDC00 then
      match rest with
      | '\\' :: 'u' :: a :: b :: c :: d :: rest =>
        let low ← hexQuad? a b c d
        if 0xDC00 ≤ low ∧ low < 0xE000 then
          let (body, rest) ← stringBody fuel rest
          return (Char.ofNat (0x10000 + (unit - 0xD800) * 0x400 + (low - 0xDC00)) :: body, rest)
        else none
      | _ => none
    else if 0xDC00 ≤ unit ∧ unit < 0xE000 then none
    else
      let (body, rest) ← stringBody fuel rest
      return (Char.ofNat unit :: body, rest)
  | fuel + 1, '\\' :: letter :: rest => do
    let c ← escaped? letter
    let (body, rest) ← stringBody fuel rest
    return (c :: body, rest)
  | fuel + 1, c :: rest => do
    if c.toNat < 32 then none
    else
      let (body, rest) ← stringBody fuel rest
      return (c :: body, rest)
  | _ + 1, [] => none

/-- A floating-point number, unless it is too large to be one. -/
def float?OfText (negative : Bool) (text : List Char) : Option Json :=
  (Decimal.ofText? text).bind fun d =>
    let x := d.toFloat
    if x.isInf then none else some (.float (if negative then -x else x))

/-- The number without sign at the start of a text. -/
def number? (negative : Bool) (text : List Char) : Option (Json × List Char) := do
  let whole := text.takeWhile Char.isDigit
  let rest := text.dropWhile Char.isDigit
  if whole = [] ∨ (whole.length ≠ 1 ∧ whole.head? = some '0') then none
  let (fraction, rest) ← match rest with
    | '.' :: more =>
      let digits := more.takeWhile Char.isDigit
      if digits = [] then none else some ('.' :: digits, more.dropWhile Char.isDigit)
    | _ => some ([], rest)
  let (exponent, rest) ← match rest with
    | c :: more =>
      if c = 'e' ∨ c = 'E' then
        let (sign, more) := match more with
          | '+' :: more => (['+'], more)
          | '-' :: more => (['-'], more)
          | _ => ([], more)
        let digits := more.takeWhile Char.isDigit
        if digits = [] then none
        else some ('e' :: (sign ++ digits), more.dropWhile Char.isDigit)
      else some ([], rest)
    | [] => some ([], [])
  if fraction = [] ∧ exponent = [] then
    let n := Decimal.natOfDigits whole
    if negative ∧ n ≠ 0 ∧ n ≤ Word.signedBound then return (.int (-n), rest)
    if !negative ∧ n < Word.unsignedBound then return (.int n, rest)
  return (← float?OfText negative (whole ++ fraction ++ exponent), rest)

mutual

/-- The value at the start of a text. -/
def value? : Nat → List Char → Option (Json × List Char)
  | 0, _ => none
  | fuel + 1, text =>
    match skipBlank text with
    | '"' :: rest => do
      let (body, rest) ← stringBody rest.length rest
      return (.string (String.ofList body), rest)
    | '[' :: rest =>
      match skipBlank rest with
      | ']' :: rest => some (.array [], rest)
      | rest => do
        let (items, rest) ← items? fuel rest
        return (.array items, rest)
    | '\x7b' :: rest =>
      match skipBlank rest with
      | '\x7d' :: rest => some (.object [], rest)
      | rest => do
        let (members, rest) ← members? fuel rest
        return (ofMembers members, rest)
    | 't' :: 'r' :: 'u' :: 'e' :: rest => some (.bool true, rest)
    | 'f' :: 'a' :: 'l' :: 's' :: 'e' :: rest => some (.bool false, rest)
    | 'n' :: 'u' :: 'l' :: 'l' :: rest => some (.null, rest)
    | '-' :: rest => number? true rest
    | rest => number? false rest

/-- The items of an array up to its closing bracket. -/
def items? : Nat → List Char → Option (List Json × List Char)
  | 0, _ => none
  | fuel + 1, text => do
    let (value, rest) ← value? fuel text
    match skipBlank rest with
    | ']' :: rest => return ([value], rest)
    | ',' :: rest =>
      let (items, rest) ← items? fuel rest
      return (value :: items, rest)
    | _ => none

/-- The members of an object up to its closing brace. -/
def members? : Nat → List Char → Option (List (String × Json) × List Char)
  | 0, _ => none
  | fuel + 1, text => do
    let '"' :: rest := skipBlank text | none
    let (key, rest) ← stringBody rest.length rest
    let ':' :: rest := skipBlank rest | none
    let (value, rest) ← value? fuel rest
    match skipBlank rest with
    | '\x7d' :: rest => return ([(String.ofList key, value)], rest)
    | ',' :: rest =>
      let (members, rest) ← members? fuel rest
      return ((String.ofList key, value) :: members, rest)
    | _ => none

end

/-- The value written in a text, with nothing but white space around it. -/
def parse? (text : String) : Option Json := do
  let chars := text.toList
  let (value, rest) ← value? (2 * chars.length + 1) chars
  if skipBlank rest = [] then return value else none

end Rendition.Json
