import Rendition.Source.Delimiter
import Rendition.Source.Number
import Rendition.Source.Token
import Rendition.Text.Identifier

/-!
# From text to tokens

A source text is cut into tokens from left to right, each as long as it can be. Inside a format
string the rules change: its text is no token sequence, but a replacement field is, up to the brace
that closes it, and the format of a field is text again.

## Main definitions

* `marks`: The marks, longer ones first.
* `Mode`: What the lexer is inside of.
* `tokenize`: The tokens of a source text, the end of the source included.
-/

namespace Rendition.Source

/-- The marks, longer ones first. -/
def marks : List String :=
  ["**=", "//=", ">>=", "<<=", "...",
    "**", "//", ">>", "<<", "<=", ">=", "==", "!=", "<>", "->", ":=", "+=", "-=", "*=", "/=", "@=",
    "%=", "&=", "^=", "|=",
    "+", "-", "*", "/", "@", "%", "&", "|", "^", "~", "<", ">", "(", ")", "[", "]", "\x7b", "\x7d",
    ",", ":", ".", ";", "="]

/-- The longest mark at the start of a text. -/
def longestMark? (text : List Char) : Option String :=
  marks.find? fun mark => mark.toList.isPrefixOf text

/-- What the lexer is inside of, within format strings. -/
inductive Mode where
  /-- The text of a format string. -/
  | text (d : Delimiter)
  /-- A replacement field: how many brackets and how many `lambda`s wait for their end, and whether
      the last token was a word. -/
  | field (depth lambdas : Nat) (afterWord : Bool)
  /-- The format of a replacement field. -/
  | spec
  deriving DecidableEq

/-- A token of code at the start of a text. -/
def codeToken (inField : Bool) (text : List Char) : TokenKind × List Char :=
  match text with
  | [] => (.sourceEnd, [])
  | c :: rest =>
    if Text.startsName c then (.word, c :: rest.takeWhile Text.continuesName)
    -- Of two numbers at one place the longer counts; `1.5` is not the integer `1`.
    else match Number.float? text, Number.integer? text with
      | some float, some integer =>
        if float.length < integer.length then (.integer, integer) else (.float, float)
      | some float, none => (.float, float)
      | none, some integer => (.integer, integer)
      | none, none =>
        -- An exclamation mark with a letter says how the value of a field is shown.
        match inField, c, rest with
        | true, '!', letter :: _ =>
          if 'a' ≤ letter ∧ letter ≤ 'z' then (.conversion, [c, letter])
          else match longestMark? text with
            | some mark => (.mark, mark.toList)
            | none => (.unknown, [c])
        | _, _, _ => match longestMark? text with
          | some mark => (.mark, mark.toList)
          | none => (.unknown, [c])

/-- The mode after a token of code inside a replacement field, given the modes around the field. -/
def fieldMode (depth lambdas : Nat) (outer : List Mode) (kind : TokenKind) (text : List Char) :
    List Mode :=
  let stay (depth lambdas : Nat) : List Mode := .field depth lambdas (kind = .word) :: outer
  if kind = .mark then
    match text with
    | ['('] | ['['] | ['\x7b'] => stay (depth + 1) lambdas
    | [')'] | [']'] => stay (depth - 1) lambdas
    | ['\x7d'] => if depth = 0 then outer else stay (depth - 1) lambdas
    | [':'] =>
      -- A colon outside brackets starts the format, unless a `lambda` waits for it.
      if depth ≠ 0 then stay depth lambdas
      else if lambdas ≠ 0 then stay depth (lambdas - 1)
      else .spec :: stay depth lambdas
    | _ => stay depth lambdas
  else if kind = .word ∧ depth = 0 ∧ text = ['l', 'a', 'm', 'b', 'd', 'a'] then
    stay depth (lambdas + 1)
  else stay depth lambdas

/-- The text of the format of a replacement field. -/
def specText (text : List Char) : List Char :=
  text.takeWhile fun c => c ≠ '\x7b' && c ≠ '\x7d' && c ≠ '\n'

/-- The tokens of a text inside the given modes, at most `fuel` of them. A text that goes wrong
    ends with an unknown token. -/
def tokensWithin : Nat → List Mode → Span → List Char → List Token
  | 0, _, _, _ => []
  | fuel + 1, .text d :: outer, span, text =>
    match d.scan text with
    | .closed body =>
      ⟨{}, span, .formatClose, String.ofList body⟩ ::
        tokensWithin fuel outer (span.after body) (text.drop body.length)
    | .field body =>
      ⟨{}, span, .formatText, String.ofList body⟩ ::
        ⟨{}, span.after body, .mark, "\x7b"⟩ ::
        tokensWithin fuel (.field 0 0 false :: .text d :: outer)
          ((span.after body).next '\x7b') (text.drop (body.length + 1))
    | .broken => [⟨{}, span, .unknown, ""⟩]
  | fuel + 1, .spec :: outer, span, text =>
    let body := specText text
    if body ≠ [] then
      ⟨{}, span, .formatSpec, String.ofList body⟩ ::
        tokensWithin fuel (.spec :: outer) (span.after body) (text.drop body.length)
    else
      let (gap, span, rest) := Gap.scan span text
      match rest with
      | '\x7b' :: more =>
        ⟨gap, span, .mark, "\x7b"⟩ ::
          tokensWithin fuel (.field 0 0 false :: .spec :: outer) (span.next '\x7b') more
      | '\x7d' :: more =>
        ⟨gap, span, .mark, "\x7d"⟩ :: tokensWithin fuel (outer.drop 1) (span.next '\x7d') more
      | _ => [⟨gap, span, .unknown, ""⟩]
  | fuel + 1, modes, span, text =>
    let (gap, span, rest) := Gap.scan span text
    match Delimiter.open? rest with
    | some (d, opening) =>
      let after := rest.drop opening.length
      let afterOpening := span.after opening
      let outer := match modes with
        | .field depth lambdas _ :: outer => .field depth lambdas false :: outer
        | _ => []
      if d.format then
        ⟨gap.absorbed, span, .formatOpen, String.ofList opening⟩ ::
          tokensWithin fuel (.text d :: outer) afterOpening after
      else match d.scan after with
        | .closed body =>
          ⟨gap.absorbed, span, .string, String.ofList (opening ++ body)⟩ ::
            tokensWithin fuel outer (afterOpening.after body) (after.drop body.length)
        | _ => [⟨gap.absorbed, span, .unknown, ""⟩]
    | none =>
      let (kind, body) := codeToken (!modes.isEmpty) rest
      -- Outside brackets of a field a colon starts the format even before an equals sign, except
      -- right after a word, where both make up one mark.
      let body := match modes with
        | .field 0 _ false :: _ => if body = [':', '='] then [':'] else body
        | _ => body
      let token : Token := ⟨gap, span, kind, String.ofList body⟩
      if kind = .sourceEnd ∨ kind = .unknown then [token]
      else
        let modes := match modes with
          | .field depth lambdas _ :: outer => fieldMode depth lambdas outer kind body
          | _ => []
        token :: tokensWithin fuel modes (span.after body) (rest.drop body.length)

/-- The tokens of a source text, the end of the source included. -/
def tokenize (text : List Char) : List Token :=
  tokensWithin (text.length + 1) [] ⟨1, 0⟩ text

end Rendition.Source
