import Rendition.Source.Cursor

/-!
# Words

Which words can be names depends on where they stand. Some words never name anything; `async` and
`await` name variables but no attributes, functions or parameters; `print`, `exec`, `match` and
`type` are names wherever no statement starts with them.

## Main definitions

* `isReserved`: Words that name no attribute, function or parameter.
* `isVariable`: Words that can be used as a variable.
* `identifier`: Take a name.
* `dottedName`: Take names separated by points.
* `Token.startsExpression`: Whether an expression can start with a token.
-/

namespace Rendition.Source

/-- Words that name no attribute, function or parameter. -/
def reserved : List String :=
  ["False", "None", "True", "and", "as", "assert", "async", "await", "break", "class", "continue",
    "def", "del", "elif", "else", "except", "finally", "for", "from", "global", "if", "import",
    "in", "is", "lambda", "nonlocal", "not", "or", "pass", "raise", "return", "try", "while",
    "with", "yield"]

/-- Whether a word names no attribute, function or parameter. -/
def isReserved (text : String) : Bool :=
  reserved.contains text

/-- Whether a word can be used as a variable. -/
def isVariable (text : String) : Bool :=
  !isReserved text || text == "async" || text == "await"

namespace Token

/-- Whether the token is a name. -/
def isIdentifier (t : Token) : Bool :=
  t.kind = .word && !isReserved t.text

/-- Whether an operand can start with the token. -/
def startsOperand (t : Token) : Bool :=
  match t.kind with
  | .word => isVariable t.text || ["True", "False", "None"].contains t.text
  | .integer | .float | .string | .formatOpen => true
  | .mark => ["(", "[", "\x7b", "+", "-", "~", "*", "..."].contains t.text
  | _ => false

/-- Whether an expression can start with the token. -/
def startsExpression (t : Token) : Bool :=
  t.startsOperand || t.isWord "not" || t.isWord "lambda"

end Token

/-- Take a name. -/
def identifier (f : Frame) : Parser Token := do
  require (← peek).isIdentifier
  shift f

/-- Take names separated by points. -/
def dottedName (f : Frame) : Parser Unit := do
  discard (identifier f)
  extend (fun () => do
    if ← mark? f.middle "." then
      discard (identifier f)
      return some ()
    else return none) ()

end Rendition.Source
