import Rendition.Source.Grammar.Literal

/-!
# Patterns

What a `case` compares with. Patterns leave nothing behind, so it only matters what can be one.

## Main definitions

* `patternAt`: Patterns, with alternatives and names for what matches.
* `patterns`: The patterns of a case.
-/

namespace Rendition.Source

/-- A number in a pattern. -/
def patternNumber (f : Frame) : Parser Unit := do
  let t ← peek
  require (t.kind = .integer || t.kind = .float)
  discard (shift f)

/-- A number in a pattern, possibly with a sign and an imaginary part. -/
def patternComplex (f : Frame) : Parser Unit := do
  discard (mark? f.middle "-")
  patternNumber f
  if (← atMark "+") || (← atMark "-") then
    discard (shift f.middle)
    patternNumber f

/-- The patterns of a list up to its closing bracket. -/
def patternsUntil (pattern : Frame → Parser Unit) (f : Frame) (opening closing : String) :
    Parser Unit := do
  discard (mark f.inside opening)
  discard (itemsUntil f closing (fun _ => ()) (pattern f.inside))

/-- A starred name in a pattern. -/
def patternSplat (f : Frame) : Parser Unit := do
  discard (shift f.middle)
  discard (identifier f)

/-- A pattern without alternatives outside brackets. -/
def patternTerm (expr : ExprParser) (pattern : Frame → Parser Unit) (f : Frame) : Parser Unit := do
  let t ← peek
  match t.kind with
  | .string | .formatOpen => discard (literals expr f)
  | .integer | .float => patternComplex f
  | .word =>
    if ["True", "False", "None"].contains t.text then discard (shift f)
    else
      dottedName f
      if ← atMark "(" then patternsUntil pattern f "(" ")"
  | .mark =>
    if t.text == "-" then patternComplex f
    else if t.text == "(" then patternsUntil pattern f "(" ")"
    else if t.text == "[" then patternsUntil pattern f "[" "]"
    else if t.text == "\x7b" then
      discard (mark f.inside "\x7b")
      discard (itemsUntil f "\x7d" (fun _ => ()) do
        if ← atMark "**" then patternSplat f.inside
        else
          pattern f.middle
          discard (mark f.middle ":")
          pattern f.inside)
    else
      require (t.text == "*" || t.text == "**")
      patternSplat f
  | _ => failure

/-- A pattern that is nested less than `fuel` deep. -/
def patternAt (expr : ExprParser) : Nat → Frame → Parser Unit
  | 0, _ => failure
  | fuel + 1, f => do
    let pattern := patternAt expr fuel
    if (← peek).isIdentifier && (← second (·.isMark "=")) then
      discard (shift f)
      discard (shiftOperator f.middle)
    patternTerm expr pattern f
    extend (fun () => do
      if ← mark? f.middle "|" then
        patternTerm expr pattern f
        return some ()
      else if ← atWord "as" then
        discard (shift f.middle)
        discard (identifier f)
        return some ()
      else return none) ()

/-- The patterns of a case. -/
def patterns (expr : ExprParser) (f : Frame) : Parser Unit := fun ts =>
  (do
    discard (listed f "," (fun _ => ()) (fun t => !t.isMark ":" && !t.isWord "if")
      (patternAt expr (ts.length + 1) f)) : Parser Unit) ts

end Rendition.Source
