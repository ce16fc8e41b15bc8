import Rendition.Source.Gap

/-!
# Tokens

The words, numbers, strings and marks of a source text, each with the gap before it, so that the
gaps and texts of all tokens together are the source text.

## Main definitions

* `TokenKind`: The kinds of tokens.
* `Token`: A token with the gap before it.
* `Token.excerpt`: The source text that a run of tokens covers.
-/

namespace Rendition.Source

/-- The kinds of tokens. -/
inductive TokenKind where
  /-- A name or a keyword. -/
  | word
  | integer
  | float
  /-- A string literal without replacement fields. -/
  | string
  /-- A bracket, operator or other punctuation mark. -/
  | mark
  /-- The opening of a format string. -/
  | formatOpen
  /-- Text before a replacement field. -/
  | formatText
  /-- The rest of the text, with the closing quote. -/
  | formatClose
  /-- Text of the format of a replacement field. -/
  | formatSpec
  /-- The conversion of a replacement field, such as `!r`. -/
  | conversion
  /-- The end of a statement at the end of a line. It takes up no characters. -/
  | lineEnd
  /-- The end of the source. It takes up no characters. -/
  | sourceEnd
  /-- Characters that make up no token. -/
  | unknown
  deriving DecidableEq

/-- A token with the gap before it. -/
structure Token where
  gap : Gap
  span : Span
  kind : TokenKind
  text : String
  deriving DecidableEq

namespace Token

/-- The token that ends a statement before the given token. -/
def lineEnd (next : Token) : Token :=
  ⟨{}, next.span, .lineEnd, ""⟩

/-- Whether the token is the given mark. -/
def isMark (t : Token) (text : String) : Bool :=
  t.kind = .mark && t.text == text

/-- Whether the token is the given word. -/
def isWord (t : Token) (text : String) : Bool :=
  t.kind = .word && t.text == text

/-- The source text that a run of tokens covers, without the gap before the first. -/
def excerpt : List Token → String
  | [] => ""
  | first :: rest =>
    first.text ++ String.join (rest.map fun t => String.ofList t.gap.text ++ t.text)

end Token

end Rendition.Source
