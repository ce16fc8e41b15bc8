import Rendition.Source.Grammar.Parameter

/-!
# Brackets

What stands between brackets: parenthesized expressions, tuples, lists, dictionaries, sets,
comprehensions, arguments and indices.

## Main definitions

* `comprehension`: The clauses of a comprehension.
* `parenthesized`, `bracketed`, `braced`: What an opening bracket starts.
* `arguments`: The arguments of a call.
* `indices`: The indices of a subscript.
-/

namespace Rendition.Source

/-- A `lambda` whose body is of the given level. -/
def lambdaOf (expr : ExprParser) (f : Frame) (level : Nat) : Parser Expr := do
  let t ← peek
  require (t.isWord "lambda")
  discard (shift f.middle)
  let params ← lambdaParameters expr f
  discard (mark f.middle ":")
  return .lambda t.span params (← expr f level)

/-! ## Comprehensions -/

/-- Whether a comprehension follows its body. -/
def atComprehension : Parser Bool := do
  return (← atWord "for") || (← atWord "async")

/-- A `for` clause of a comprehension. -/
def forClause (expr : ExprParser) (f : Frame) : Parser Unit := do
  if ← atWord "async" then discard (shift f.middle)
  discard (word f.middle "for")
  discard (targets expr f.middle)
  discard (word f.middle "in")
  discard (listed f.inside "," Continuation.toExpr Token.startsExpression
    (expr f.inside Level.iterable))

/-- The clauses of a comprehension. -/
def comprehension (expr : ExprParser) (f : Frame) : Parser Unit := do
  forClause expr f
  extend (fun () => do
    if ← atComprehension then
      forClause expr f
      return some ()
    else if ← atWord "if" then
      discard (shiftOperator f.middle)
      discard (expr f.inside Level.aliased)
      return some ()
    else return none) ()

/-- The rest of a comprehension of the given kind after its body, with the closing bracket. -/
def comprehensionUntil (expr : ExprParser) (f : Frame) (closing : String) : Parser Unit := do
  comprehension expr f
  require (← atMark closing)
  discard (shift f)

/-! ## Collections -/

/-- An element of a collection. -/
def element (expr : ExprParser) (f : Frame) : Parser Expr := do
  let t ← peek
  if t.isWord "yield" then yielded expr f
  else if t.isMark "*" then
    discard (shiftOperator f.middle)
    return .splat t.span (← expr f Level.any)
  else if t.isMark "**" then
    discard (shiftOperator f.middle)
    let e ← expr f Level.any
    require e.leadsWithPlace
    return .splat t.span e
  else expr f Level.any

/-- A parenthesized expression, a tuple or a generator. -/
def parenthesized (expr : ExprParser) (f : Frame) : Parser Expr := do
  let t ← mark f.inside "("
  let before := (← continuations).map Continuation.toExpr
  if ← atMark ")" then
    discard (shift f)
    return .tuple t.span before
  else
    let first ← element expr f.inside
    if ← atComprehension then
      require first.isBody
      comprehensionUntil expr f ")"
      return .other t.span "generator_expression"
    else if ← atMark ")" then
      let after := (← continuations).map Continuation.toExpr
      discard (shift f)
      -- Only continued lines can make several parts where there is no comma.
      match before with
      | [] => return .parens t.span first after
      | item :: items => return .parens t.span item (items ++ [first] ++ after)
    else
      return .tuple t.span
        (← moreItems f ")" Continuation.toExpr (element expr f.inside) (before ++ [first]))

/-- A list or a list comprehension. -/
def bracketed (expr : ExprParser) (f : Frame) : Parser Expr := do
  let t ← mark f.inside "["
  let before := (← continuations).map Continuation.toExpr
  if ← atMark "]" then
    discard (shift f)
    return .list t.span before
  else
    let first ← element expr f.inside
    if ← atComprehension then
      require first.isBody
      comprehensionUntil expr f "]"
      return .other t.span "list_comprehension"
    else
      return .list t.span
        (← moreItems f "]" Continuation.toExpr (element expr f.inside) (before ++ [first]))

/-- The line continuation as it stands among the entries of a dictionary. -/
def Continuation.toEntry (c : Continuation) : Expr × Option Expr :=
  (c.toExpr, none)

/-- The value of an entry after its key. -/
def entryValue (expr : ExprParser) (f : Frame) (key : Expr) : Parser (Expr × Option Expr) := do
  discard (mark f.middle ":")
  return (key, some (← expr f Level.any))

/-- An entry of a dictionary. -/
def entry (expr : ExprParser) (f : Frame) : Parser (Expr × Option Expr) := do
  let t ← peek
  if t.isMark "**" then
    discard (shiftOperator f.middle)
    discard (expr f Level.any)
    return (.other t.span "dictionary_splat", none)
  else entryValue expr f (← expr f Level.any)

/-- A dictionary, a set or a comprehension of either. -/
def braced (expr : ExprParser) (f : Frame) : Parser Expr := do
  let closing := "\x7d"
  let t ← mark f.inside "\x7b"
  let before := (← continuations).map Continuation.toEntry
  let dict (entries : List (Expr × Option Expr)) : Parser Expr := do
    return .dict t.span
      (← moreItems f closing Continuation.toEntry (entry expr f.inside) entries)
  if ← atMark closing then
    discard (shift f)
    return .dict t.span before
  else if ← atMark "," then
    discard (shift f.inside)
    let after := (← continuations).map Continuation.toEntry
    require (← atMark closing)
    discard (shift f)
    return .dict t.span (before ++ after)
  else if ← atMark "**" then dict (before ++ [← entry expr f.inside])
  else
    let first ← element expr f.inside
    if ← atMark ":" then
      require first.isBody
      let first ← entryValue expr f.inside first
      if ← atComprehension then
        comprehensionUntil expr f closing
        return .other t.span "dictionary_comprehension"
      else dict (before ++ [first])
    else if ← atComprehension then
      require first.isBody
      comprehensionUntil expr f closing
      return .other t.span "set_comprehension"
    else
      -- A set has no counterpart, so its elements only have to follow the grammar.
      discard (moreItems f closing Continuation.toExpr (element expr f.inside) [])
      return .other t.span "set"

/-! ## Arguments -/

/-- The line continuation as it stands among arguments. -/
def Continuation.toArgument (c : Continuation) : Option String × Expr :=
  (none, c.toExpr)

/-- One argument. -/
def argument (expr : ExprParser) (f : Frame) : Parser (Option String × Expr) := do
  let t ← peek
  if t.isMark "*" then
    discard (shiftOperator f.middle)
    return (none, .splat t.span (← expr f Level.any))
  else if t.isMark "**" then
    discard (shiftOperator f.middle)
    discard (expr f Level.any)
    return (none, .other t.span "dictionary_splat")
  else if t.kind = .word && isVariable t.text && (← second (·.isMark "=")) then
    discard (shift f)
    discard (mark f.middle "=")
    return (some t.text, ← expr f Level.any)
  else return (none, ← expr f Level.any)

/-- The arguments of a call and the place of their list, or only the place if the argument is a
    comprehension without parentheses of its own. -/
def arguments (expr : ExprParser) (f : Frame) :
    Parser (Span × Option (List (Option String × Expr))) := do
  let t ← mark f.inside "("
  let before := (← continuations).map Continuation.toArgument
  if ← atMark ")" then
    discard (shift f)
    return (t.span, some before)
  else if ← atMark "," then
    discard (shift f.inside)
    let after := (← continuations).map Continuation.toArgument
    require (← atMark ")")
    discard (shift f)
    return (t.span, some (before ++ after))
  else
    let first ← argument expr f.inside
    if ← atComprehension then
      require (first.1.isNone && first.2.isBody)
      comprehensionUntil expr f ")"
      return (t.span, none)
    else
      return (t.span, some
        (← moreItems f ")" Continuation.toArgument (argument expr f.inside) (before ++ [first])))

/-! ## Indices -/

/-- One index: an expression or a slice. -/
def index (expr : ExprParser) (f : Frame) : Parser Expr := do
  let span := (← peek).span
  let lower ← if ← atMark ":" then pure none else some <$> expr f Level.any
  let start : List (Option Expr) := match lower with
    | some e => [some e]
    | none => []
  let (parts, colons) ← extend (fun state => do
    let (parts, colons) := state
    if colons < 2 && (← atMark ":") then
      let before := (← continuations).map fun c => some c.toExpr
      let before := if parts.isEmpty then [] else before
      discard (shiftOperator f)
      let parts := parts ++ before ++ [none]
      if (← peek).startsExpression then
        let after := (← continuations).map fun c => some c.toExpr
        return some (parts ++ after ++ [some (← expr f Level.any)], colons + 1)
      else return some (parts, colons + 1)
    else return none) (start, 0)
  -- Without a colon it is no slice, but the expression itself.
  match lower, colons with
  | some e, 0 => return e
  | _, _ => return .slice span parts

/-- The first index between the brackets of a subscript, and the others. -/
def indices (expr : ExprParser) (f : Frame) : Parser (Expr × List Expr) := do
  discard (mark f.middle "[")
  let first ← index expr f.inside
  let others ← moreItems f "]" (fun _ => none) (some <$> index expr f.inside) []
  return (first, others.filterMap id)

end Rendition.Source
