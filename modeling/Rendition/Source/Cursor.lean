import Rendition.Source.Token

/-!
# Reading tokens

A parser takes tokens from the front of a list. Whether the end of a line means anything depends on
what may come next, so a token is looked at in a `Frame`, which tells
what may stand there besides a token of the construct at hand: if a statement may end, the end of a
line ends it; if a bracket may close, lines do not matter; anywhere else a line that is indented
less than the block around it is out of place, and nothing more can be read.

## Main definitions

* `Frame`: What may come next.
* `Parser`: Functions that take tokens from the front of a list.
* `Frame.expose`: The list as it appears in a frame.
* `shift`: Take one token and expose the next.
* `extend`: Repeat a step as long as it has something to add.
* `covered`: The source text that a parser takes.
-/

namespace Rendition.Source

/-- What may come next, in a block of a given indentation. -/
structure Frame where
  /-- The indentation of the block. -/
  margin : Nat
  /-- Whether the statement may end here. -/
  newline : Bool := false
  /-- Whether a closing bracket may come here. -/
  closer : Bool := false

namespace Frame

/-- In the middle of a construct. -/
def middle (f : Frame) : Frame :=
  { f with newline := false, closer := false }

/-- Between brackets, where the construct may end. -/
def inside (f : Frame) : Frame :=
  { f with newline := false, closer := true }

/-- Where a statement of a block may end. -/
def statement (margin : Nat) : Frame :=
  ⟨margin, true, false⟩

/-- In the middle of the head of a compound statement. -/
def head (margin : Nat) : Frame :=
  ⟨margin, false, false⟩

/-- Whether a token, or a comment before it, stands on a line that leaves the block. A string may
    start on such a line where a string is expected. -/
def leaves (f : Frame) (quote : Bool) (t : Token) : Bool :=
  (match t.gap.commentIndent with
    | some width => width < f.margin
    | none => false)
  || (t.gap.breaksLine && t.gap.indent < f.margin
    && !(quote && (t.kind = .string || t.kind = .formatOpen)))

/-- The list as it appears in a frame: with the end of a statement in front, as it is, or empty
    if its first token is out of place. -/
def expose (f : Frame) (quote : Bool) : List Token → List Token
  | [] => []
  | t :: rest =>
    if f.newline && t.gap.breaksLine then t.lineEnd :: t :: rest
    else if !f.closer && f.leaves quote t then []
    else t :: rest

end Frame

/-- Functions that take tokens from the front of a list, or fail. -/
abbrev Parser := StateT (List Token) Option

/-- The token at the front. -/
def peek : Parser Token := fun ts =>
  match ts with
  | [] => none
  | t :: _ => some (t, ts)

/-- Take the token at the front without exposing the next. -/
def takeToken : Parser Token := fun ts =>
  match ts with
  | [] => none
  | t :: rest => some (t, rest)

/-- Expose the token at the front in a frame, where a string is expected or not. -/
def exposeNext (f : Frame) (quote : Bool) : Parser Unit :=
  modify (f.expose quote)

/-- Take the token at the front and expose the next in a frame. -/
def shift (f : Frame) : Parser Token := do
  let t ← takeToken
  exposeNext f false
  return t

/-- Take a token that an expression follows: a string is expected there, among others. -/
def shiftOperator (f : Frame) : Parser Token := do
  let t ← takeToken
  exposeNext f true
  return t

/-- Whether the token at the front is the given mark. -/
def atMark (text : String) : Parser Bool := fun ts =>
  some (match ts with
    | [] => false
    | t :: _ => t.isMark text, ts)

/-- Whether the token at the front is the given word. -/
def atWord (text : String) : Parser Bool := fun ts =>
  some (match ts with
    | [] => false
    | t :: _ => t.isWord text, ts)

/-- Whether the token at the front is of the given kind. -/
def atKind (kind : TokenKind) : Parser Bool := fun ts =>
  some (match ts with
    | [] => false
    | t :: _ => t.kind = kind, ts)

/-- Whether the token after the one at the front satisfies a test. -/
def second (test : Token → Bool) : Parser Bool := fun ts =>
  some (match ts with
    | _ :: t :: _ => test t
    | _ => false, ts)

/-- Go on only if a condition holds. -/
def require (condition : Bool) : Parser Unit :=
  if condition then pure () else failure

/-- Take the given mark, which something follows. -/
def mark (f : Frame) (text : String) : Parser Token := do
  require (← atMark text)
  shiftOperator f

/-- Take the given word, which something follows. -/
def word (f : Frame) (text : String) : Parser Token := do
  require (← atWord text)
  shiftOperator f

/-- Take the given mark if it is at the front. -/
def mark? (f : Frame) (text : String) : Parser Bool := do
  if ← atMark text then
    discard (shiftOperator f)
    return true
  else return false

/-- The line continuations in the gap before the token at the front. -/
def continuations : Parser (List Continuation) := fun ts =>
  some (match ts with
    | [] => []
    | t :: _ => t.gap.continuations, ts)

/-- The place of the first line continuation in the gap before the token at the front. -/
def continued? : Parser (Option Span) := do
  return (← continuations).head?.map Continuation.span

/-- Repeat a step, at most `fuel` times, as long as it has something to add. -/
def extendWithin {α : Type} (step : α → Parser (Option α)) : Nat → α → Parser α
  | 0, _ => failure
  | fuel + 1, a => do
    match ← step a with
    | none => return a
    | some b => extendWithin step fuel b

/-- Repeat a step as long as it has something to add. A step that adds something takes a token, so
    the number of tokens bounds the repetitions. -/
def extend {α : Type} (step : α → Parser (Option α)) (a : α) : Parser α := fun ts =>
  extendWithin step (ts.length + 1) a ts

/-- A parser together with the source text that it takes. -/
def covered {α : Type} (p : Parser α) : Parser (α × String) := do
  let before : List Token ← get
  let a ← p
  let after : List Token ← get
  let rest := match after with
    | t :: rest => if t.kind = TokenKind.lineEnd then rest else after
    | [] => []
  return (a, Token.excerpt (before.take (before.length - rest.length)))

/-- Items separated by commas, of which there is at least one, after `first`. No comma may follow
    the last one. -/
def commaSeparated {α : Type} (f : Frame) (item : Parser α) : Parser (List α) := do
  let first ← item
  extend (fun items => do
    if ← mark? f.middle "," then return some (items ++ [← item])
    else return none) [first]

/-- Items with separators between them, the line continuations among them, and whether there was a
    separator. A separator may follow the last item: the list goes on after a separator if `starts`
    says so of the next token. -/
def listed {α : Type} (f : Frame) (separator : String) (continuation : Continuation → α)
    (starts : Token → Bool) (item : Parser α) : Parser (List α × Bool) := do
  let first ← item
  let step (state : List α × Bool × Bool) : Parser (Option (List α × Bool × Bool)) := do
    let (items, _, ended) := state
    if ended then return none
    else if ← atMark separator then
      let before := (← continuations).map continuation
      discard (shiftOperator f)
      -- What stands behind the separator tells whether it was the last one.
      if starts (← peek) then
        let after := (← continuations).map continuation
        return some (items ++ before ++ after ++ [← item], true, false)
      else return some (items ++ before, true, true)
    else return none
  let (items, separated, _) ← extend step ([first], false, false)
  return (items, separated)

/-- What may end a list with brackets: the rest of the items after `items`, line continuations
    among them, and the closing bracket. A comma may follow the last item. -/
def moreItems {α : Type} (f : Frame) (closing : String) (continuation : Continuation → α)
    (item : Parser α) (items : List α) : Parser (List α) := do
  let step (state : List α × Bool) : Parser (Option (List α × Bool)) := do
    let (items, closed) := state
    if closed then return none
    let items := items ++ (← continuations).map continuation
    if ← atMark closing then
      discard (shift f)
      return some (items, true)
    else
      discard (mark f.inside ",")
      let items := items ++ (← continuations).map continuation
      if ← atMark closing then
        discard (shift f)
        return some (items, true)
      else return some (items ++ [← item], false)
  let (items, _) ← extend step (items, false)
  return items

/-- The items of a list after its opening bracket, and the closing bracket. -/
def itemsUntil {α : Type} (f : Frame) (closing : String) (continuation : Continuation → α)
    (item : Parser α) : Parser (List α) := do
  let before := (← continuations).map continuation
  if ← atMark closing then
    discard (shift f)
    return before
  else
    let first ← item
    moreItems f closing continuation item (before ++ [first])

end Rendition.Source
