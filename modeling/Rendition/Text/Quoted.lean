/-!
# Quoted texts

A text between double quotes, in the form that both source formats share: quotes and backslashes
are written with a backslash in front, and line feeds, carriage returns and tabs as a letter after
a backslash. Everything else stands for itself.

## Main definitions

* `Text.quoteChar`: The written form of one character.
* `Text.quote`: The written form of a text.
* `Text.unescape`: The text that the inside of a written form denotes.
-/

namespace Rendition.Text

/-- The written form of one character. -/
def quoteChar (c : Char) : List Char :=
  if c = '"' then ['\\', '"']
  else if c = '\\' then ['\\', '\\']
  else if c = '\n' then ['\\', 'n']
  else if c = '\r' then ['\\', 'r']
  else if c = '\t' then ['\\', 't']
  else [c]

/-- A text between double quotes. -/
def quote (text : String) : String :=
  String.ofList ('"' :: (text.toList.flatMap quoteChar ++ ['"']))

/-- What the character after a backslash stands for: nothing for a line feed, and both characters
    themselves where the pair has no meaning of its own. -/
def unescapePair (c : Char) : List Char :=
  if c = 'n' then ['\n']
  else if c = 't' then ['\t']
  else if c = 'r' then ['\r']
  else if c = '0' then [Char.ofNat 0]
  else if c = '\\' then ['\\']
  else if c = '\'' then ['\'']
  else if c = '"' then ['"']
  else if c = '\n' then []
  else ['\\', c]

/-- The text that the inside of a written form denotes. A lone backslash at the end stands for
    itself. -/
def unescape : List Char → List Char
  | [] => []
  | ['\\'] => ['\\']
  | '\\' :: c :: rest => unescapePair c ++ unescape rest
  | c :: rest => c :: unescape rest

end Rendition.Text
