import Rendition.Source.Grammar.Bracket

/-!
# Types

Types annotate parameters, variables and results. They leave nothing behind, so it only matters
what can be one. A type is an expression, a name with types in brackets, a starred name, or a
combination of types by `|`, `.` and `:`.

## Main definitions

* `typeAt`: Types.
* `typeParameters`: Types in brackets.
-/

namespace Rendition.Source

/-- Parsers of types, in the frame after the type. A colon can go on with the type where `bounded`
    says so. -/
abbrev TypeParser := Frame → (bounded : Bool) → Parser Unit

/-- Types in brackets. -/
def typeParameters (type : TypeParser) (f : Frame) : Parser Unit := do
  discard (mark f.middle "[")
  type f.inside true
  discard (moreItems f "]" (fun _ => ()) (type f.inside true) [])

/-- A type that is nested less than `fuel` deep. -/
def typeAt (expr : ExprParser) : Nat → TypeParser
  | 0 => fun _ _ => failure
  | fuel + 1 => fun f bounded => do
    let t ← peek
    let composed ← do
      if t.isMark "**" then
        discard (shift f.middle)
        discard (identifier f)
        pure true
      else if t.isIdentifier && (← second (·.isMark "[")) then
        discard (shift f)
        typeParameters (typeAt expr fuel) f
        pure true
      else
        discard (expr f Level.any)
        pure false
    extend (fun () => do
      if composed && (← atMark ".") then
        discard (shift f.middle)
        discard (identifier f)
        return some ()
      else return none) ()
    if composed && (← atMark "|") then
      discard (shiftOperator f.middle)
      typeAt expr fuel f bounded
    else if bounded && (← atMark ":") then
      discard (shiftOperator f.middle)
      typeAt expr fuel f bounded

end Rendition.Source
