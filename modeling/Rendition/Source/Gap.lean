import Rendition.Span

/-!
# Gaps between tokens

Between two tokens may stand white space, comments and line continuations. A gap records what the
grammar wants to know of them: whether a line ended, how far the next line is indented, and where
lines were continued.

Not all white space is alike. Blanks, tabs, carriage returns, form feeds and line feeds make up
the layout of lines. Vertical tabs, byte order marks, word joiners and zero-width spaces only
separate tokens: once one of them was met, line ends go unnoticed up to the next comment or
continuation.

## Main definitions

* `Span.after`: The place behind a run of characters.
* `Gap`: What stands between two tokens.
* `Gap.scan`: The gap at the start of a text, and the rest of the text.
-/

namespace Rendition

/-- The place behind a character. -/
def Span.next (s : Span) (c : Char) : Span :=
  if c = '\n' then ⟨s.line + 1, 0⟩ else ⟨s.line, s.column + c.utf8Size⟩

/-- The place behind a run of characters. -/
def Span.after (s : Span) (text : List Char) : Span :=
  text.foldl Span.next s

namespace Source

/-- A line continuation: a backslash at the end of a line. -/
structure Continuation where
  span : Span
  text : String
  deriving DecidableEq

/-- What stands between two tokens. -/
structure Gap where
  /-- The characters of the gap. -/
  text : List Char := []
  /-- Whether a line ends in the gap. -/
  breaksLine : Bool := false
  /-- The indentation of the line that follows. -/
  indent : Nat := 0
  /-- The least indentation of the lines that hold only a comment. -/
  commentIndent : Option Nat := none
  /-- The line continuations up to the last comment. -/
  settled : List Continuation := []
  /-- The line continuations after the last comment. -/
  pending : List Continuation := []
  deriving DecidableEq

namespace Gap

/-- The line continuations of the gap. -/
def continuations (gap : Gap) : List Continuation :=
  gap.settled ++ gap.pending

/-- The gap as it stands before a string literal, which absorbs the continuations before it. -/
def absorbed (gap : Gap) : Gap :=
  { gap with pending := [] }

/-- Characters that separate tokens without being part of the layout of lines. -/
def isSeparator (c : Char) : Bool :=
  c.toNat = 0x0B || c.toNat = 0xFEFF || c.toNat = 0x2060 || c.toNat = 0x200B

/-- The state of a scan. -/
structure Scan where
  gap : Gap
  span : Span
  /-- Whether a line ended since the start of the gap or the last comment or continuation. -/
  atLineStart : Bool := false
  /-- Whether line ends go unnoticed. -/
  blind : Bool := false
  /-- Whether the scan is inside a comment. -/
  inComment : Bool := false

namespace Scan

/-- Take characters into the gap. -/
def take (s : Scan) (text : List Char) : Scan :=
  { s with gap := { s.gap with text := s.gap.text ++ text }, span := s.span.after text }

/-- A line ends. -/
def lineEnd (s : Scan) : Scan :=
  if s.blind then s.take ['\n']
  else { s.take ['\n'] with
    gap := { (s.take ['\n']).gap with breaksLine := true, indent := 0 }, atLineStart := true }

/-- White space that makes the indentation of the line what `width` says. -/
def blank (s : Scan) (c : Char) (width : Nat → Nat) : Scan :=
  let s := s.take [c]
  if s.blind then s else { s with gap := { s.gap with indent := width s.gap.indent } }

/-- A comment starts. -/
def comment (s : Scan) : Scan :=
  let margin := if s.atLineStart && !s.blind then
      some (match s.gap.commentIndent with
        | some width => min width s.gap.indent
        | none => s.gap.indent)
    else s.gap.commentIndent
  let gap := { s.gap with
    commentIndent := margin, settled := s.gap.settled ++ s.gap.pending, pending := [] }
  { s.take ['#'] with
    gap := { gap with text := s.gap.text ++ ['#'], indent := 0 },
    atLineStart := false, blind := false, inComment := true }

/-- A line is continued. -/
def continuation (s : Scan) (text : List Char) : Scan :=
  let pending := s.gap.pending ++ [⟨s.span, String.ofList text⟩]
  let s := s.take text
  { s with gap := { s.gap with pending }, blind := false }

end Scan

/-- The source ends, and with it the line. -/
def Scan.sourceEnd (s : Scan) : Scan :=
  if s.blind then s else { s with gap := { s.gap with breaksLine := true, indent := 0 } }

/-- Go on with a scan. -/
def scanFrom : Scan → List Char → Scan × List Char
  | s, [] => (s.sourceEnd, [])
  | s, c :: rest =>
    if s.inComment then
      if c = '\n' then scanFrom { s with inComment := false }.lineEnd rest
      else scanFrom (s.take [c]) rest
    else if c = '\n' then scanFrom s.lineEnd rest
    else if c = ' ' then scanFrom (s.blank c (· + 1)) rest
    else if c = '\t' then scanFrom (s.blank c (· + 8)) rest
    else if c = '\r' ∨ c.toNat = 0x0C then scanFrom (s.blank c fun _ => 0) rest
    else if isSeparator c then scanFrom { s.take [c] with blind := true } rest
    else if c = '#' then scanFrom s.comment rest
    else if c = '\\' then
      match rest with
      | [] => ((s.continuation ['\\']).sourceEnd, [])
      | '\r' :: '\n' :: more => scanFrom (s.continuation ['\\', '\r', '\n']) more
      | d :: more =>
        -- A backslash before anything else continues no line, and the gap ends before it.
        if d = '\n' ∨ d.toNat = 0 then scanFrom (s.continuation ['\\', d]) more
        else (s, c :: rest)
    else (s, c :: rest)

/-- The gap at the start of a text, the place behind it and the rest of the text. -/
def scan (span : Span) (text : List Char) : Gap × Span × List Char :=
  let (s, rest) := scanFrom { gap := {}, span } text
  (s.gap, s.span, rest)

end Gap

end Source

end Rendition
