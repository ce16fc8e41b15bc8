/-!
# String literals

A string literal starts with letters that say how it is read and an opening quote, and runs to the
matching closing quote. A backslash protects the quote after it. A line may not end inside a
literal between single quotes, except right after the opening quote or after an escape.

The text of a format string is interrupted by replacement fields in braces.

## Main definitions

* `Delimiter`: How a literal was opened.
* `Delimiter.open?`: The opening of the literal at the start of a text.
* `Delimiter.scan`: The text up to the closing quote or the next replacement field.
-/

namespace Rendition.Source

/-- How a string literal was opened. -/
structure Delimiter where
  quote : Char
  /-- Whether the quote is written three times. -/
  triple : Bool
  /-- Whether backslashes stand for themselves. -/
  raw : Bool
  bytes : Bool
  /-- Whether the literal has replacement fields. -/
  format : Bool
  deriving DecidableEq

namespace Delimiter

/-- The letters that may precede an opening quote. -/
def letters : List Char :=
  ['f', 'F', 't', 'T', 'r', 'R', 'b', 'B', 'u', 'U']

/-- The opening of the literal at the start of a text, with the characters that it takes. -/
def open? (text : List Char) : Option (Delimiter × List Char) :=
  let flags := text.takeWhile letters.contains
  let has (letters : List Char) : Bool := flags.any letters.contains
  let opened (quote : Char) (triple : Bool) : Delimiter :=
    ⟨quote, triple, has ['r', 'R'], has ['b', 'B'], has ['f', 'F', 't', 'T']⟩
  match text.drop flags.length with
  | q :: rest =>
    if q = '\x60' then some (opened q false, flags ++ [q])
    else if q = '"' ∨ q = '\'' then
      if rest.take 2 = [q, q] then some (opened q true, flags ++ [q, q, q])
      else some (opened q false, flags ++ [q])
    else none
  | [] => none

/-- Whether a character is a hexadecimal digit. -/
def isHex (c : Char) : Bool :=
  c.isDigit || ('a' ≤ c && c ≤ 'f') || ('A' ≤ c && c ≤ 'F')

/-- How many of the characters after a backslash belong to the escape, the longest one counting. -/
def escapeLength : List Char → Nat
  | [] => 0
  | c :: rest =>
    let hex (n : Nat) : Nat :=
      if (rest.take n).length = n ∧ (rest.take n).all isHex then n + 1 else 0
    if c = 'u' then hex 4
    else if c = 'U' then hex 8
    else if c = 'x' then hex 2
    else if c.isDigit then 1 + ((rest.take 2).takeWhile Char.isDigit).length
    else if c = '\r' then if rest.head? = some '\n' then 2 else 0
    else if c = 'N' then
      match rest with
      | '\x7b' :: more =>
        let name := more.takeWhile (· ≠ '\x7d')
        if name ≠ [] ∧ name.length < more.length then name.length + 3 else 0
      | _ => 0
    else if ['\n', '\'', '"', 'a', 'b', 'f', 'r', 'n', 't', 'v', '\\'].contains c then 1
    else 0

/-- How many of the characters after a backslash are passed over with it in a raw literal: a quote
    or a backslash, and then the end of a line. -/
def rawLength (quote : Char) (text : List Char) : Nat :=
  let first := match text with
    | c :: _ => if c = quote ∨ c = '\\' then 1 else 0
    | [] => 0
  match text.drop first with
  | '\r' :: '\n' :: _ => first + 2
  | '\r' :: _ => first + 1
  | '\n' :: _ => first + 1
  | _ => first

/-- Where a scan of the text of a literal came to an end. The text includes a closing quote. -/
inductive Stop where
  /-- At the closing quote. -/
  | closed (text : List Char)
  /-- Before the brace that opens a replacement field. -/
  | field (text : List Char)
  /-- Where a line or the source ended too early, or before a brace that closes nothing. -/
  | broken
  deriving DecidableEq

/-- The same stop with characters put in front of the text. -/
def Stop.prepend (text : List Char) : Stop → Stop
  | closed rest => closed (text ++ rest)
  | field rest => field (text ++ rest)
  | broken => broken

/-- The text of a literal up to its closing quote or the next replacement field, among the first
    `fuel` steps. A line may end here if nothing but escapes came before it, which `fresh` tells. -/
def scanWithin (d : Delimiter) : Nat → Bool → List Char → Stop
  | 0, _, _ => .broken
  | _ + 1, _, [] => .broken
  | fuel + 1, fresh, c :: rest =>
    if c.toNat = 0 then .broken
    else if d.format ∧ (c = '\x7b' ∨ c = '\x7d') then
      match rest with
      | e :: more =>
        if e = c then (scanWithin d fuel true more).prepend [c, c]
        else if c = '\x7b' then .field []
        else .broken
      | [] => if c = '\x7b' then .field [] else .broken
    else if c = '\\' then
      if d.raw then
        let n := rawLength d.quote rest
        (scanWithin d fuel fresh (rest.drop n)).prepend (c :: rest.take n)
      else if d.bytes ∧ (rest.head? = some 'N' ∨ rest.head? = some 'u' ∨ rest.head? = some 'U') then
        (scanWithin d fuel false (rest.drop 2)).prepend (c :: rest.take 2)
      else
        let n := escapeLength rest
        (scanWithin d fuel true (rest.drop n)).prepend (c :: rest.take n)
    else if c = d.quote then
      if d.triple then
        if rest.take 2 = [c, c] then .closed [c, c, c]
        else (scanWithin d fuel false rest).prepend [c]
      else .closed [c]
    else if c = '\n' ∧ !fresh ∧ !d.triple then .broken
    else (scanWithin d fuel false rest).prepend [c]

/-- The text of a literal up to its closing quote or the next replacement field. -/
def scan (d : Delimiter) (text : List Char) : Stop :=
  scanWithin d (text.length + 1) true text

end Delimiter

end Rendition.Source
