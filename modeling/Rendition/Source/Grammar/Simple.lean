import Rendition.Source.Grammar.Annotation
import Rendition.Source.Grammar.Literal

/-!
# Simple statements

The statements that fit into a line, several of them separated by semicolons. A word such as
`print` only starts a statement of its own where no expression can be read.

## Main definitions

* `Phrases`: The parsers of expressions and types that statements are made with.
* `assigned`: The right side of an assignment.
* `expressionStatement`: Expressions and assignments.
* `simple`: A simple statement.
* `simpleLine`: The simple statements of a line.
-/

namespace Rendition.Source

/-- The parsers of expressions and types that statements are made with. -/
structure Phrases where
  expr : ExprParser
  type : TypeParser

/-- The line continuation as it stands among statements. -/
def Continuation.toStmt (c : Continuation) : Stmt :=
  .other c.span "line_continuation"

/-! ## Assignments -/

/-- What follows the left side of an assignment. -/
inductive Assigned where
  /-- A value, or only a type. -/
  | plain (value : Option Expr)
  | augmented (op : Operator) (value : Expr)

/-- What follows an expression if it is the left side of an assignment. -/
def assignment? (p : Phrases) (f : Frame) (value : Parser Expr) (left : Expr) :
    Parser (Option Assigned) := do
  let t ← peek
  if t.isMark "=" then
    require left.isPattern
    discard (shiftOperator f.middle)
    return some (.plain (some (← value)))
  else if t.isMark ":" then
    require left.isPattern
    discard (shiftOperator f.middle)
    p.type f true
    if ← mark? f.middle "=" then return some (.plain (some (← value)))
    else return some (.plain none)
  else match t.augmented? with
    | some op =>
      require left.isPattern
      discard (shiftOperator f.middle)
      return some (.augmented op (← value))
    | none => return none

/-- The right side of an assignment in which less than `fuel` assignments are nested. -/
def assignedAt (p : Phrases) (f : Frame) : Nat → Parser Expr
  | 0 => failure
  | fuel + 1 => do
    if ← atWord "yield" then yielded p.expr f
    else
      let e ← sequence p.expr f
      match ← assignment? p f (assignedAt p f fuel) e with
      | none => return e
      | some (.plain _) => return .other e.span "assignment"
      | some (.augmented ..) => return .other e.span "augmented_assignment"

/-- The right side of an assignment. -/
def assigned (p : Phrases) (f : Frame) : Parser Expr := fun ts =>
  assignedAt p f (ts.length + 1) ts

/-- Expressions and assignments. -/
def expressionStatement (p : Phrases) (f : Frame) : Parser Stmt := do
  let span := (← peek).span
  if ← atWord "yield" then return .expression span (← yielded p.expr f)
  else
    let e ← sequence p.expr f
    match ← assignment? p f (assigned p f) e with
    | none => return .expression span e
    | some (.plain value) => return .assign span e value
    | some (.augmented op value) => return .augAssign span e op value

/-! ## Imports -/

/-- An imported name. -/
def importedName (f : Frame) : Parser ImportedName := do
  let ((), name) ← covered (dottedName f)
  if ← atWord "as" then
    discard (shift f.middle)
    return ⟨name, some (← identifier f).text⟩
  else return ⟨name, none⟩

/-- Imported names, of which there is at least one. -/
def importedNames (f : Frame) : Parser (List ImportedName) := do
  let (names, _) ← listed f "," (fun _ => none) Token.isIdentifier (some <$> importedName f)
  return names.filterMap id

/-- Imported names, possibly in parentheses. -/
def importList (f : Frame) : Parser (List ImportedName) := do
  if ← mark? f.middle "(" then
    let names ← importedNames f.inside
    require (← atMark ")")
    discard (shift f)
    return names
  else importedNames f

/-- The module that names are imported from, which points can precede. -/
def moduleName (f : Frame) : Parser Unit := do
  let points ← extend (fun count => do
    if (← atMark ".") || (← atMark "...") then
      discard (shift f)
      return some (count + 1)
    else return none) 0
  -- Points alone name the package at hand.
  if points = 0 || (← peek).isIdentifier then dottedName f

/-- The import of the given names. -/
def importOf (span : Span) (source : Option String) (names : List ImportedName) : Parser Stmt :=
  match names with
  | [] => failure
  | name :: names => return .importStmt span source name names

/-- An import of names from a module. -/
def importFrom (f : Frame) (span : Span) : Parser Stmt := do
  discard (shift f.middle)
  if ← atWord "__future__" then
    discard (shift f.middle)
    discard (word f.middle "import")
    discard (importList f)
    return .other span "future_import_statement"
  else
    let ((), source) ← covered (moduleName f.middle)
    discard (word f.middle "import")
    if ← atMark "*" then
      discard (shift f)
      importOf span (some source) [⟨"*", none⟩]
    else importOf span (some source) (← importList f)

/-! ## Statements -/

/-- An operand that stands first among the parts of a statement, unless a line continuation comes
    before it. -/
def firstPart (operand : Parser Expr) : Parser Expr := do
  let before ← continuations
  let e ← operand
  match before with
  | [] => return e
  | c :: _ => return c.toExpr

/-- Whether a simple statement can end before the token at the front. -/
def atStatementEnd : Parser Bool := do
  return (← atKind .lineEnd) || (← atMark ";")

/-- A statement that starts with the word `print`. -/
def printed (p : Phrases) (f : Frame) (span : Span) : Parser Stmt := do
  discard (shiftOperator f)
  if ← mark? f.middle ">>" then
    discard (p.expr f Level.any)
    if ← mark? f "," then
      if (← peek).startsExpression then discard (sequence p.expr f)
  else discard (sequence p.expr f)
  return .other span "print_statement"

/-- A statement that starts with the word `exec`. -/
def executed (p : Phrases) (f : Frame) (span : Span) : Parser Stmt := do
  discard (shiftOperator f)
  let t ← peek
  if t.kind = .string || t.kind = .formatOpen then literal p.expr f
  else discard (identifier f)
  if ← atWord "in" then
    discard (shiftOperator f.middle)
    discard (commaSeparated f (p.expr f Level.any))
  return .other span "exec_statement"

/-- A statement that gives a name to a type. -/
def typeAlias (p : Phrases) (f : Frame) (span : Span) : Parser Stmt := do
  discard (shiftOperator f)
  p.type f.middle true
  discard (mark f.middle "=")
  p.type f true
  return .other span "type_alias_statement"

/-- Only accept a statement that ends where a simple statement can end. -/
def ended (statement : Parser Stmt) : Parser Stmt := do
  let s ← statement
  require (← atStatementEnd)
  return s

/-- A statement that a reserved word starts, or none if the word starts no statement. -/
def keywordStatement? (p : Phrases) (f : Frame) (t : Token) : Option (Parser Stmt) :=
  if t.kind ≠ .word then none
  else match t.text with
    | "pass" => some do
      discard (shift f)
      return .passStmt t.span
    | "break" => some do
      discard (shift f)
      return .breakStmt t.span
    | "continue" => some do
      discard (shift f)
      return .continueStmt t.span
    | "return" => some do
      discard (shiftOperator f)
      if (← peek).startsExpression then
        return .returnStmt t.span (some (← firstPart (sequence p.expr f)))
      else return .returnStmt t.span none
    | "raise" => some do
      discard (shiftOperator f)
      let exception ← do
        if (← peek).startsExpression then some <$> firstPart (sequence p.expr f) else pure none
      if ← atWord "from" then
        discard (shiftOperator f.middle)
        discard (p.expr f Level.any)
        return .raiseStmt t.span exception true
      else return .raiseStmt t.span exception false
    | "del" => some do
      discard (shiftOperator f.middle)
      discard (sequence p.expr f)
      return .other t.span "delete_statement"
    | "assert" => some do
      discard (shiftOperator f.middle)
      discard (commaSeparated f (p.expr f Level.any))
      return .other t.span "assert_statement"
    | "global" => some do
      discard (shift f.middle)
      discard (commaSeparated f (identifier f))
      return .other t.span "global_statement"
    | "nonlocal" => some do
      discard (shift f.middle)
      discard (commaSeparated f (identifier f))
      return .other t.span "nonlocal_statement"
    | "import" => some do
      discard (shift f.middle)
      importOf t.span none (← importedNames f)
    | "from" => some (importFrom f t.span)
    | _ => none

/-- A simple statement, in the frame after it. -/
def simple (p : Phrases) (f : Frame) : Parser Stmt := do
  let t ← peek
  match keywordStatement? p f t with
  | some statement => statement
  | none =>
    if t.isWord "print" then
      -- An arrow behind the word decides; otherwise it is a name if an expression can be read.
      if ← second (·.isMark ">>") then printed p f t.span
      else ended (expressionStatement p f) <|> printed p f t.span
    else if t.isWord "exec" then
      ended (expressionStatement p f) <|> executed p f t.span
    else if t.isWord "type" then
      ended (typeAlias p f t.span) <|> expressionStatement p f
    else expressionStatement p f

/-- The simple statements of a line in a block of the given indentation, up to the end of the
    line. -/
def simpleLine (p : Phrases) (margin : Nat) : Parser (List Stmt) := do
  let f := Frame.statement margin
  let (statements, _) ←
    listed f ";" Continuation.toStmt (fun t => t.kind ≠ .lineEnd) (simple p f)
  require (← atKind .lineEnd)
  discard takeToken
  return statements

end Rendition.Source
