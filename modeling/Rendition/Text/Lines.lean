import Rendition.Text.Blank

/-!
# Lines

A text is a sequence of lines. A line ends at a line feed, and a carriage return right before it
belongs to the ending; a last line need not end.

## Main definitions

* `Text.lines`: The lines of a text, without their endings.
* `Text.isBlankLine`: Whether a line holds nothing but white space.
* `Text.excerpt`: A range of lines without the blank ones at its end.
-/

namespace Rendition.Text

/-- Put a character in front of the first line. -/
def consLine (c : Char) : List (List Char) → List (List Char)
  | [] => [[c]]
  | line :: rest => (c :: line) :: rest

/-- The lines of a text. A carriage return before a line feed is dropped with it. -/
def lines : List Char → List (List Char)
  | [] => []
  | '\n' :: rest => [] :: lines rest
  | '\r' :: '\n' :: rest => [] :: lines rest
  | c :: rest => consLine c (lines rest)

/-- Whether a line holds nothing but white space. -/
def isBlankLine (line : List Char) : Bool :=
  line.all isBlank

/-- The lines from number `first`, counted from one, up to but not including `stop`, without the
    blank ones at the end. Without `stop` the lines run to the end of the text. -/
def excerpt (text : List Char) (first : Nat) (stop : Option Nat) : List (List Char) :=
  let rest := (lines text).drop (first - 1)
  let range := match stop with
    | some stop => rest.take (stop - first)
    | none => rest
  (range.reverse.dropWhile isBlankLine).reverse

/-- Lines as one text, a line feed between each two. -/
def joinLines (lines : List (List Char)) : List Char :=
  List.intercalate ['\n'] lines

end Rendition.Text
