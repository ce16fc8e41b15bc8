import Rendition.Source.Grammar.Sequence

/-!
# String literals as operands

String literals one after another make up one operand. In a format string every replacement field
holds expressions, and its format may hold further fields. Inside a format string lines and
indentation do not matter.

## Main definitions

* `literal`: One string literal.
* `literals`: String literals one after another.
-/

namespace Rendition.Source

/-- Inside a format string. -/
def Frame.field : Frame :=
  ⟨0, false, true⟩

/-- A replacement field behind its opening brace, up to its closing brace or the colon before its
    format. Tells whether a format follows. -/
def replacement (expr : ExprParser) : Parser Bool := do
  discard (yieldedOrSequence expr .field)
  discard (mark? .field "=")
  if ← atKind .conversion then discard takeToken
  if ← mark? .field ":" then return true
  else
    require (← atMark "\x7d")
    discard takeToken
    return false

/-- One piece of a format string inside the formats of `depth` replacement fields. Gives the depth
    behind the piece, or nothing at the closing quote. -/
def formatPiece (expr : ExprParser) (depth : Nat) : Parser (Option Nat) := do
  let t ← peek
  if t.isMark "\x7b" then
    discard takeToken
    return some (if ← replacement expr then depth + 1 else depth)
  else if t.kind = .formatText && depth = 0 then
    discard takeToken
    return some depth
  else if t.kind = .formatSpec && depth ≠ 0 then
    discard takeToken
    return some depth
  else if t.isMark "\x7d" && depth ≠ 0 then
    discard takeToken
    return some (depth - 1)
  else
    require (t.kind = .formatClose && depth = 0)
    return none

/-- One string literal, which another one may follow. -/
def literal (expr : ExprParser) (f : Frame) : Parser Unit := do
  if ← atKind .formatOpen then
    discard takeToken
    discard (extend (formatPiece expr) 0)
  discard (shiftOperator f)

/-- String literals one after another. -/
def literals (expr : ExprParser) (f : Frame) : Parser Expr := do
  let span := (← peek).span
  let literals ← extend (fun literals => do
    let t ← peek
    if t.kind = .string || t.kind = .formatOpen then
      let ((), text) ← covered (literal expr f)
      return some (literals ++ [(t.span, text)])
    else return none) []
  match literals with
  | [(span, text)] => return .string span text
  | _ => return .strings span literals

end Rendition.Source
