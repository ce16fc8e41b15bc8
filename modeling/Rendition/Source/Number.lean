/-!
# Number literals

The longest number at the start of a text. Digits may be grouped by single underscores, one of
which may also stand at the end of a decimal group. A number may carry a letter that marks it as
long or imaginary.

## Main definitions

* `Number.integer?`: The longest integer literal at the start of a text.
* `Number.float?`: The longest floating-point literal at the start of a text.
-/

namespace Rendition.Source.Number

/-- Whether a character is a hexadecimal digit. -/
def isHexDigit (c : Char) : Bool :=
  c.isDigit || ('a' ≤ c && c ≤ 'f') || ('A' ≤ c && c ≤ 'F')

/-- The longest run of decimal digits, where an underscore may follow a digit; `grouping` tells
    whether one may come first. -/
def decimalRunFrom : Bool → List Char → List Char
  | _, [] => []
  | grouping, c :: rest =>
    if c.isDigit then c :: decimalRunFrom true rest
    else if c = '_' ∧ grouping then c :: decimalRunFrom false rest
    else []

/-- The longest run of decimal digits, where an underscore may follow a digit. -/
def decimalRun (text : List Char) : List Char :=
  decimalRunFrom false text

/-- The longest run of digits of another base, in which an underscore may precede a digit. -/
def baseRun (isDigit : Char → Bool) : List Char → List Char
  | [] => []
  | c :: rest =>
    if isDigit c then c :: baseRun isDigit rest
    else if c = '_' then
      match rest with
      | d :: _ => if isDigit d then c :: baseRun isDigit rest else []
      | [] => []
    else []

/-- The first character, if it is one of the given ones. -/
def oneOf (letters : List Char) : List Char → List Char
  | c :: _ => if letters.contains c then [c] else []
  | [] => []

/-- The longest integer literal at the start of a text. -/
def integer? (text : List Char) : Option (List Char) :=
  let based (isDigit : Char → Bool) (lead rest : List Char) : Option (List Char) :=
    let digits := baseRun isDigit rest
    if digits = [] then none
    else some (lead ++ digits ++ oneOf ['l', 'L'] (rest.drop digits.length))
  let decimal : Option (List Char) :=
    let digits := decimalRun text
    if digits = [] then none
    else some (digits ++ oneOf ['l', 'L', 'j', 'J'] (text.drop digits.length))
  let other : Option (List Char) := match text with
    | '0' :: letter :: rest =>
      if letter = 'x' ∨ letter = 'X' then based isHexDigit ['0', letter] rest
      else if letter = 'o' ∨ letter = 'O' then
        based (fun c => '0' ≤ c && c ≤ '7') ['0', letter] rest
      else if letter = 'b' ∨ letter = 'B' then
        based (fun c => c = '0' || c = '1') ['0', letter] rest
      else none
    | _ => none
  other.or decimal

/-- The exponent at the start of a text. -/
def exponent (text : List Char) : List Char :=
  match text with
  | letter :: rest =>
    if letter = 'e' ∨ letter = 'E' then
      let sign := oneOf ['+', '-'] rest
      let digits := decimalRun (rest.drop sign.length)
      if digits = [] then [] else letter :: (sign ++ digits)
    else []
  | [] => []

/-- The longest floating-point literal at the start of a text: it has a point or an exponent. -/
def float? (text : List Char) : Option (List Char) :=
  let whole := decimalRun text
  let rest := text.drop whole.length
  let mantissa := match rest with
    | '.' :: more =>
      let fraction := decimalRun more
      if whole = [] ∧ fraction = [] then [] else whole ++ '.' :: fraction
    | _ => []
  if mantissa ≠ [] then
    let power := exponent (text.drop mantissa.length)
    some (mantissa ++ power ++ oneOf ['j', 'J'] (text.drop (mantissa.length + power.length)))
  else if whole ≠ [] then
    let power := exponent rest
    if power = [] then none
    else some (whole ++ power ++ oneOf ['j', 'J'] (rest.drop power.length))
  else none

end Rendition.Source.Number
