import Rendition.Source.Grammar.Sequence

/-!
# Parameters

The parameters of functions. Only names can be read, with a type where types are possible; the
other forms are recognized and named.

## Main definitions

* `parameter`: One parameter.
-/

namespace Rendition.Source

/-- The line continuation as it stands among parameters. -/
def Continuation.toParam (c : Continuation) : Param :=
  .other c.span "line_continuation"

/-- Go on with a parameter that may have a type, which `type?` reads where types are possible. -/
def annotated (type? : Option (Parser Unit)) (f : Frame) : Parser Bool := do
  match type? with
  | some type =>
    if ← mark? f.middle ":" then
      type
      return true
    else return false
  | none => return false

/-- Go on with a parameter that may have a default value. -/
def defaulted (expr : ExprParser) (f : Frame) : Parser Bool := do
  if ← mark? f.middle "=" then
    discard (expr f Level.any)
    return true
  else return false

/-- What follows a star in front of a parameter. -/
def starred (expr : ExprParser) (type? : Option (Parser Unit)) (f : Frame) (span : Span)
    (construct : String) : Parser Param := do
  require (← expr f Level.primary).isPlace
  if ← annotated type? f then return .other span "typed_parameter"
  else return .other span construct

/-- One parameter, in the frame after it. -/
def parameter (expr : ExprParser) (type? : Option (Parser Unit)) (f : Frame) :
    Parser Param := do
  let t ← peek
  if t.isIdentifier then
    discard (shift f)
    if ← annotated type? f then
      if ← defaulted expr f then return .other t.span "typed_default_parameter"
      else return .named t.text
    else if ← defaulted expr f then return .other t.span "default_parameter"
    else return .named t.text
  else if t.isMark "(" then
    match ← expr f Level.primary with
    | .tuple _ items =>
      require (Expr.arePatterns items)
      if ← defaulted expr f then return .other t.span "default_parameter"
      else return .other t.span "tuple_pattern"
    | .parens _ item items =>
      require (item.isPattern && Expr.arePatterns items)
      if ← defaulted expr f then return .other t.span "default_parameter"
      else return .other t.span "tuple_pattern"
    | _ => failure
  else if t.isMark "*" then
    discard (shift f)
    if (← peek).startsOperand then
      starred expr type? f t.span "list_splat_pattern"
    else return .other t.span "keyword_separator"
  else if t.isMark "**" then
    discard (shift f.middle)
    starred expr type? f t.span "dictionary_splat_pattern"
  else if t.isMark "/" then
    discard (shift f)
    return .other t.span "positional_separator"
  else failure

/-- The parameters of a `lambda` up to its colon. -/
def lambdaParameters (expr : ExprParser) (f : Frame) : Parser (List Param) := do
  if ← atMark ":" then return []
  else
    let (params, _) ← listed f.middle "," Continuation.toParam (fun t => !t.isMark ":")
      (parameter expr none f.middle)
    return params

end Rendition.Source
