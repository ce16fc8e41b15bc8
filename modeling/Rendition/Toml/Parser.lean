import Rendition.Toml.Scalar
import Rendition.Toml.Table

/-!
# Reading configuration texts

A configuration text is a sequence of lines: headers, which start a table, and keys with their
values, which belong to the table started last. Arrays and tables may be nested in a value, but not
too deep.

## Main definitions

* `value?`: The value at the start of a text.
* `parse?`: The value that a whole text denotes.
-/

namespace Rendition.Toml

/-! ## Layout -/

/-- Whether a character is a blank. -/
def isBlank (c : Char) : Bool :=
  c = ' ' || c = '\t'

/-- Whether a character can stand in a comment or a text. -/
def isPrintable (c : Char) : Bool :=
  c = '\t' || (0x20 ≤ c.toNat && c.toNat ≠ 0x7F)

/-- The text after the blanks at its start. -/
def skipBlanks (text : List Char) : List Char :=
  text.dropWhile isBlank

/-- The text after the blanks and the comment at its start. -/
def skipComment (text : List Char) : List Char :=
  match skipBlanks text with
  | '#' :: rest => rest.dropWhile isPrintable
  | rest => rest

/-- The text after the end of a line at its start. -/
def afterLineEnd? : List Char → Option (List Char)
  | '\n' :: rest => some rest
  | '\r' :: '\n' :: rest => some rest
  | _ => none

/-- The text after blanks, comments and ends of lines, of which there are less than `fuel`. -/
def skipLines : Nat → List Char → List Char
  | 0, text => text
  | fuel + 1, text =>
    match afterLineEnd? (skipComment text) with
    | some rest => skipLines fuel rest
    | none => skipComment text

/-- The text after blanks, comments and ends of lines. -/
def skipLayout (text : List Char) : List Char :=
  skipLines text.length text

/-! ## Texts -/

/-- The character that an escape denotes after its backslash. -/
def escape? : List Char → Option (Char × List Char)
  | 'b' :: rest => some (Char.ofNat 8, rest)
  | 't' :: rest => some ('\t', rest)
  | 'n' :: rest => some ('\n', rest)
  | 'f' :: rest => some (Char.ofNat 12, rest)
  | 'r' :: rest => some ('\r', rest)
  | '"' :: rest => some ('"', rest)
  | '\\' :: rest => some ('\\', rest)
  | letter :: rest => do
    let count ← if letter = 'u' then some 4 else if letter = 'U' then some 8 else none
    let digits := rest.take count
    if digits.length ≠ count then none
    let code ← natural? 16 (digits.filter (· ≠ '_'))
    if digits.contains '_' ∨ !(decide code.isValidChar) then none
    return (Char.ofNat code, rest.drop count)
  | [] => none

/-- A text of one line up to its closing quote. Escapes mean something between double quotes. -/
def lineText? (quote : Char) : Nat → List Char → Option (List Char × List Char)
  | 0, _ => none
  | _ + 1, [] => none
  | fuel + 1, c :: rest =>
    if c = quote then some ([], rest)
    else if c = '\\' ∧ quote = '"' then do
      let (c, rest) ← escape? rest
      let (text, rest) ← lineText? quote fuel rest
      return (c :: text, rest)
    else if isPrintable c then do
      let (text, rest) ← lineText? quote fuel rest
      return (c :: text, rest)
    else none

/-- A text of several lines up to its closing quotes. Up to two quotes may stand inside it, also
    right before the closing ones. -/
def blockText? (quote : Char) : Nat → List Char → Option (List Char × List Char)
  | 0, _ => none
  | _ + 1, [] => none
  | fuel + 1, c :: rest =>
    if c = quote then
      let quotes := (c :: rest).takeWhile (· = quote)
      if quotes.length < 3 then do
        let (text, rest) ← blockText? quote fuel (rest.drop (quotes.length - 1))
        return (quotes ++ text, rest)
      else
        -- Of up to five quotes the last three close the text.
        let count := min quotes.length 5
        some (quotes.take (count - 3), rest.drop (count - 1))
    else if c = '\\' ∧ quote = '"' then
      -- A backslash at the end of a line also removes the layout up to the next character.
      match afterLineEnd? (skipBlanks rest) with
      | some more =>
        blockText? quote fuel
          (more.dropWhile fun c => isBlank c || c = '\n' || c = '\r')
      | none => do
        let (c, rest) ← escape? rest
        let (text, rest) ← blockText? quote fuel rest
        return (c :: text, rest)
    else match afterLineEnd? (c :: rest) with
      | some more => do
        let (text, rest) ← blockText? quote fuel more
        return ('\n' :: text, rest)
      | none =>
        if isPrintable c then do
          let (text, rest) ← blockText? quote fuel rest
          return (c :: text, rest)
        else none

/-- The text that the given quote opens. -/
def text? (quote : Char) (text : List Char) : Option (List Char × List Char) :=
  match text with
  | a :: b :: rest =>
    if a = quote ∧ b = quote then
      let body := (afterLineEnd? rest).getD rest
      blockText? quote (body.length + 1) body
    else lineText? quote (text.length + 1) text
  | _ => lineText? quote (text.length + 1) text

/-! ## Keys -/

/-- The key at the start of a text. -/
def key? (text : List Char) : Option (String × List Char) :=
  match text with
  | '"' :: rest => (lineText? '"' (rest.length + 1) rest).map fun (key, rest) =>
    (String.ofList key, rest)
  | '\'' :: rest => (lineText? '\'' (rest.length + 1) rest).map fun (key, rest) =>
    (String.ofList key, rest)
  | _ =>
    let isBare (c : Char) : Bool := c.isAlphanum || c = '_' || c = '-'
    let key := text.takeWhile isBare
    if key = [] then none else some (String.ofList key, text.dropWhile isBare)

/-- The greatest number of brackets or parts of a key, plus one. -/
def depthLimit : Nat := 80

/-- The dotted key at the start of a text, with blanks around it, of at most `fuel` parts. -/
def path? : Nat → List Char → Option (List String × List Char)
  | 0, _ => none
  | fuel + 1, text => do
    let (key, rest) ← key? (skipBlanks text)
    match skipBlanks rest with
    | '.' :: rest =>
      let (path, rest) ← path? fuel rest
      return (key :: path, rest)
    | rest => return ([key], rest)

/-! ## Values -/

mutual

/-- The value at the start of a text, in which less than `depth` brackets are nested. -/
def value? : Nat → Nat → List Char → Option (Json × List Char)
  | 0, _, _ => none
  | fuel + 1, depth, text =>
    match text with
    | '"' :: rest => (text? '"' rest).map fun (text, rest) => (.string (String.ofList text), rest)
    | '\'' :: rest => (text? '\'' rest).map fun (text, rest) => (.string (String.ofList text), rest)
    | '[' :: rest =>
      if depth ≤ 1 then none
      else (items? fuel (depth - 1) rest).map fun (items, rest) => (.array items, rest)
    | '\x7b' :: rest =>
      if depth ≤ 1 then none
      else match skipBlanks rest with
        | '\x7d' :: rest => some (.object [], rest)
        | _ => (entries? fuel (depth - 1) [] rest).map fun (members, rest) =>
          (Json.ofMembers (membersToJson members), rest)
    | _ => scalar? text

/-- The items of an array up to its closing bracket. -/
def items? : Nat → Nat → List Char → Option (List Json × List Char)
  | 0, _, _ => none
  | fuel + 1, depth, text =>
    match skipLayout text with
    | ']' :: rest => some ([], rest)
    | text => do
      let (value, rest) ← value? fuel depth text
      match skipLayout rest with
      | ']' :: rest => return ([value], rest)
      | ',' :: rest =>
        let (items, rest) ← items? fuel depth rest
        return (value :: items, rest)
      | _ => none

/-- The entries of a table in braces after `members`, up to its closing brace. -/
def entries? : Nat → Nat → Members → List Char → Option (Members × List Char)
  | 0, _, _, _ => none
  | fuel + 1, depth, members, text => do
    let (path, rest) ← path? (depthLimit - 1) text
    let rest ← after? '=' rest
    let (value, rest) ← value? fuel depth (skipBlanks rest)
    let members ← insert? true path (.value value) members
    match skipBlanks rest with
    | '\x7d' :: rest => return (members, rest)
    | ',' :: rest => entries? fuel depth members rest
    | _ => none

end

/-! ## Lines -/

/-- A table and the path of the table in it that was started last. -/
structure Document where
  members : Members := []
  current : List String := []

/-- The header at the start of a text after its first bracket. -/
def header? (document : Document) (text : List Char) : Option (Document × List Char) :=
  match text with
  | '[' :: rest => do
    let (path, rest) ← path? (depthLimit - 1) rest
    let rest ← after? ']' (← after? ']' rest)
    return (⟨← openElement? path document.members, path⟩, rest)
  | rest => do
    let (path, rest) ← path? (depthLimit - 1) rest
    let rest ← after? ']' rest
    return (⟨← openTable? path document.members, path⟩, rest)

/-- The key and the value at the start of a text. -/
def entry? (document : Document) (text : List Char) : Option (Document × List Char) := do
  let (path, rest) ← path? (depthLimit - 1) text
  let rest ← after? '=' rest
  let (value, rest) ← value? (2 * rest.length + 2) depthLimit (skipBlanks rest)
  let members ← update? (insert? true path (.value value)) document.current document.members
  return ({ document with members }, rest)

/-- The lines of a text after `document`, of which there are less than `fuel`. -/
def lines? : Nat → Document → List Char → Option Document
  | 0, _, _ => none
  | fuel + 1, document, text => do
    let (document, rest) ← match skipBlanks text with
      | '[' :: rest => header? document rest
      | [] => some (document, [])
      | c :: rest =>
        if c = '#' ∨ c = '\n' ∨ c = '\r' then some (document, c :: rest)
        else entry? document (c :: rest)
    match skipComment rest with
    | [] => return document
    | rest => lines? fuel document (← afterLineEnd? rest)

/-- The value that a whole text denotes. A byte order mark may precede it. -/
def parse? (text : String) : Option Json :=
  let chars := match text.toList with
    | c :: rest => if c.toNat = 0xFEFF then rest else c :: rest
    | [] => []
  (lines? (chars.length + 1) {} chars).map fun document =>
    Json.ofMembers (membersToJson document.members)

end Rendition.Toml
