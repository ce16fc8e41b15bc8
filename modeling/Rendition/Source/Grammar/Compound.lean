import Rendition.Source.Grammar.Pattern
import Rendition.Source.Grammar.Simple

/-!
# Compound statements

Statements with suites. A suite stands on the line of its head or in a block of its own, which
lasts until a line is indented less. Whoever reads a suite learns of the line continuations before
it, because they stand among the parts of the statement around it.

## Main definitions

* `compound?`: A compound statement, if one starts at the front.
* `block`: The statements of a block.
* `suiteAt`: The suite of a compound statement.
-/

namespace Rendition.Source

/-- Parsers of the suite of a statement in a block of the given indentation, with the line
    continuations before it. -/
abbrev SuiteParser := (margin : Nat) → Parser (List Continuation × List Stmt)

/-- Whether the token stands on a line that leaves a block of the given indentation. -/
def Token.leavesBlock (t : Token) (margin : Nat) : Bool :=
  t.gap.breaksLine && t.gap.indent < margin

/-- Whether a clause of a statement in a block of the given indentation goes on with a word. -/
def atClause (margin : Nat) (text : String) : Parser Bool := do
  let t ← peek
  return t.isWord text && !t.leavesBlock margin

/-! ## Clauses -/

/-- The place of the `else` clause of a loop, if it has one. -/
def loopElse (suite : SuiteParser) (margin : Nat) : Parser (Option Span) := do
  if ← atClause margin "else" then
    let t ← shift (.head margin)
    discard (suite margin)
    return some t.span
  else return none

/-- The branches of a conditional statement after the first. -/
def branches (p : Phrases) (suite : SuiteParser) (margin : Nat) : Parser (List Branch) := do
  let f := Frame.head margin
  let branches ← extend (fun branches => do
    if ← atClause margin "elif" then
      let t ← shiftOperator f
      let test ← p.expr f Level.any
      let (_, body) ← suite margin
      return some (branches ++ [.elifBranch t.span test body])
    else return none) []
  if ← atClause margin "else" then
    discard (shift f)
    let (_, body) ← suite margin
    return branches ++ [.elseBranch body]
  else return branches

/-- The line continuation as it stands in an `except` clause. -/
def Continuation.toCaught (c : Continuation) : Caught :=
  ⟨c.toExpr, c.text⟩

/-- The line continuation as it stands in a `try` statement. -/
def Continuation.toClause (c : Continuation) : Clause :=
  .other c.span "line_continuation"

/-- What an `except` clause lists before its colon. -/
def caught (p : Phrases) (f : Frame) : Parser (List Caught) := do
  if ← atMark "*" then discard (shiftOperator f)
  let before := (← continuations).map Continuation.toCaught
  if ← atMark ":" then return before
  else
    let item : Parser Caught := do
      let (e, text) ← covered (p.expr f Level.any)
      return ⟨e, text⟩
    let first ← item
    let items ← extend (fun items => do
      if ← atMark "," then
        let before := (← continuations).map Continuation.toCaught
        discard (shiftOperator f)
        let after := (← continuations).map Continuation.toCaught
        return some (items ++ before ++ after ++ [← item])
      else return none) (before ++ [first])
    let after := (← continuations).map Continuation.toCaught
    return items ++ after

/-- An `except` clause, with the line continuations that stand before it and its suite. -/
def exceptClause (p : Phrases) (suite : SuiteParser) (margin : Nat) : Parser (List Clause) := do
  let before := (← continuations).map Continuation.toClause
  let t ← shiftOperator (.head margin)
  let caught ← caught p (.head margin)
  let (leading, body) ← suite margin
  return before ++ [.except t.span (caught ++ leading.map Continuation.toCaught) body]

/-- The clauses of a `try` statement. -/
def clauses (p : Phrases) (suite : SuiteParser) (margin : Nat) : Parser (List Clause) := do
  let handlers ← extend (fun clauses => do
    if ← atClause margin "except" then
      return some (clauses ++ (← exceptClause p suite margin))
    else return none) []
  let orelse ← do
    if ← atClause margin "else" then
      let before := (← continuations).map Continuation.toClause
      let t ← shift (.head margin)
      discard (suite margin)
      pure (before ++ [.other t.span "else_clause"])
    else pure []
  let final ← do
    if ← atClause margin "finally" then
      let before := (← continuations).map Continuation.toClause
      discard (shift (.head margin))
      let (_, body) ← suite margin
      pure (before ++ [.finally body])
    else pure []
  return handlers ++ orelse ++ final

/-- The items of a `with` statement up to its colon. Parentheses belong to the list of items if
    it has several. -/
def withItems (p : Phrases) (f : Frame) : Parser (List Expr) := do
  let items (f : Frame) : Parser (List Expr) := do
    let (items, _) ← listed f "," (fun _ => none) Token.startsExpression
      (some <$> p.expr f Level.any)
    return items.filterMap id
  let enclosed : Parser (List Expr) := do
    discard (mark f.inside "(")
    let items ← items f.inside
    require (2 ≤ items.length)
    require (← atMark ")")
    discard (shift f)
    require (← atMark ":")
    return items
  -- Around a single item the parentheses belong to the expression.
  enclosed <|> items f

/-! ## Statements -/

/-- The definition of a function after the word `def`. -/
def functionDefinition (p : Phrases) (suite : SuiteParser) (margin : Nat) (span : Span) :
    Parser Stmt := do
  let f := Frame.head margin
  discard (word f "def")
  let name ← identifier f
  if ← atMark "[" then typeParameters p.type f
  discard (mark f.inside "(")
  let params ← itemsUntil f ")" Continuation.toParam
    (parameter p.expr (some (p.type f.inside true)) f.inside)
  if ← mark? f "->" then p.type f false
  let (_, body) ← suite margin
  return .functionDef span name.text params body

/-- The definition of a class. -/
def classDefinition (p : Phrases) (suite : SuiteParser) (margin : Nat) : Parser Stmt := do
  let f := Frame.head margin
  let t ← word f "class"
  let name ← identifier f
  if ← atMark "[" then typeParameters p.type f
  let bases ← do
    if ← atMark "(" then
      match ← arguments p.expr f with
      | (span, some args) => pure (some (span, args))
      | (_, none) => failure
    else pure none
  let (_, body) ← suite margin
  return .classDef t.span name.text bases body

/-- A `for` statement from the word `for` on. -/
def forStatement (p : Phrases) (suite : SuiteParser) (margin : Nat) (span : Span) :
    Parser Stmt := do
  let f := Frame.head margin
  discard (word f "for")
  let target ← targets p.expr f
  discard (word f "in")
  let iter ← sequence p.expr f
  let (_, body) ← suite margin
  return .forLoop span target iter body (← loopElse suite margin)

/-- A `with` statement from the word `with` on. -/
def withStatement (p : Phrases) (suite : SuiteParser) (margin : Nat) (span : Span) :
    Parser Stmt := do
  let f := Frame.head margin
  discard (word f "with")
  match ← withItems p f with
  | [] => failure
  | item :: items =>
    let (_, body) ← suite margin
    return .withStmt span item items body

/-- A statement that the word `async` starts. -/
def asyncStatement (p : Phrases) (suite : SuiteParser) (margin : Nat) : Parser Stmt := do
  let t ← shift (.head margin)
  if ← atWord "def" then functionDefinition p suite margin t.span
  else if ← atWord "for" then forStatement p suite margin t.span
  else withStatement p suite margin t.span

/-- A definition with decorators before it. -/
def decorated (p : Phrases) (suite : SuiteParser) (margin : Nat) : Parser Stmt := do
  let f := Frame.head margin
  extend (fun () => do
    if ← mark? f "@" then
      discard (p.expr (.statement margin) Level.any)
      require (← atKind .lineEnd)
      discard takeToken
      exposeNext f false
      return some ()
    else return none) ()
  if ← atWord "class" then classDefinition p suite margin
  else if ← atWord "async" then
    let t ← shift f
    functionDefinition p suite margin t.span
  else functionDefinition p suite margin (← peek).span

/-- A case of a `match` statement. -/
def caseClause (p : Phrases) (suite : SuiteParser) (margin : Nat) : Parser Unit := do
  let f := Frame.head margin
  discard (word f "case")
  patterns p.expr f
  if ← atWord "if" then
    discard (shiftOperator f)
    discard (p.expr f Level.any)
  discard (suite margin)

/-- A `match` statement. It is one only if the line ends behind its colon. -/
def matchStatement (p : Phrases) (suite : SuiteParser) (margin : Nat) : Parser Stmt := do
  let f := Frame.head margin
  let t ← word f "match"
  discard (listed f "," (fun _ => ()) Token.startsExpression (discard (p.expr f Level.any)))
  require (← atMark ":")
  discard takeToken
  let first ← peek
  require first.gap.breaksLine
  -- The cases stand in a block of their own, which may be missing.
  if margin < first.gap.indent then
    let inner := first.gap.indent
    extend (fun () => do
      if (← peek).leavesBlock inner then return none
      else
        caseClause p suite inner
        return some ()) ()
  return .other t.span "match_statement"

/-- Whether the token after the one at the front makes a compound statement with it. -/
def secondAfterAsync : Parser Bool :=
  second fun t => !t.gap.breaksLine && (t.isWord "def" || t.isWord "for" || t.isWord "with")

/-- A compound statement, if one starts at the front. -/
def compound? (p : Phrases) (suite : SuiteParser) (margin : Nat) : Parser (Option Stmt) := do
  let f := Frame.head margin
  let t ← peek
  if t.isMark "@" then return some (← decorated p suite margin)
  else if t.kind ≠ .word then return none
  else match t.text with
    | "def" => return some (← functionDefinition p suite margin t.span)
    | "class" => return some (← classDefinition p suite margin)
    | "if" =>
      discard (shiftOperator f)
      let test ← p.expr f Level.any
      let (_, body) ← suite margin
      return some (.ifStmt t.span test body (← branches p suite margin))
    | "while" =>
      discard (shiftOperator f)
      let test ← p.expr f Level.any
      let (_, body) ← suite margin
      return some (.whileLoop t.span test body (← loopElse suite margin))
    | "for" => return some (← forStatement p suite margin t.span)
    | "try" =>
      discard (shift f)
      let (leading, body) ← suite margin
      return some (.tryStmt t.span body
        (leading.map Continuation.toClause ++ (← clauses p suite margin)))
    | "with" => return some (← withStatement p suite margin t.span)
    | "async" =>
      if ← secondAfterAsync then return some (← asyncStatement p suite margin) else return none
    -- The word is a name wherever no cases follow.
    | "match" => some <$> matchStatement p suite margin <|> pure none
    | _ => return none

/-- A compound statement or the simple statements of a line. -/
def statementLine (p : Phrases) (suite : SuiteParser) (margin : Nat) : Parser (List Stmt) := do
  match ← compound? p suite margin with
  | some s => return [s]
  | none => simpleLine p margin

/-- The statements of a block of the given indentation after `statements`, with the line
    continuations between them. Those before the first one belong to the block only if it is the
    whole source. -/
def block (p : Phrases) (suite : SuiteParser) (margin : Nat) (whole : Bool) :
    Parser (List Stmt) :=
  extend (fun statements => do
    let t ← peek
    if t.kind = .sourceEnd || t.leavesBlock margin then return none
    else
      -- A continued line may come before a statement without being part of it.
      let leading := t.gap.continuations.map Continuation.toStmt
      let leading := if whole || !statements.isEmpty then leading else []
      return some (statements ++ leading ++ (← statementLine p suite margin))) []

/-- The suite of a compound statement after its colon, in which less than `fuel` suites are
    nested. -/
def suiteAt (p : Phrases) : Nat → SuiteParser
  | 0 => fun _ => failure
  | fuel + 1 => fun margin => do
    require (← atMark ":")
    discard takeToken
    let first ← peek
    if !first.gap.breaksLine then
      return (first.gap.continuations, ← simpleLine p margin)
    -- A line that is not indented more leaves the block without statements.
    else if margin < first.gap.indent then
      return (first.gap.continuations, ← block p (suiteAt p fuel) first.gap.indent false)
    else return ([], [])

/-- The statements of a source text. -/
def statements (p : Phrases) (suite : SuiteParser) : Parser (List Stmt) := do
  let statements ← block p suite 0 true
  let final ← peek
  require (final.kind = .sourceEnd)
  return statements ++ final.gap.continuations.map Continuation.toStmt

end Rendition.Source
