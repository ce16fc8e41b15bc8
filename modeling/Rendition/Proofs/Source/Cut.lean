import Rendition.Proofs.Grammar.Ordered
import Rendition.Proofs.Source.Excerpt

/-!
# Functions cut out of a text

The statements of a text cut its lines into ranges: the one of a statement goes from the line it
starts on up to the line of the next one. The range of a function definition is never empty, because
a line ends behind every definition, and its first line shows, because a definition starts there. So
of each range something is left without the blank lines at its end, and the ranges of different
functions have no line in common.

## Main definitions

* `lineAt`: Where the range of a statement starts.
* `rows`: The lines of a statement.
* `definitions`: The positions of the function definitions among statements.
* `CutAt`: What a task holds of the definition at a position.
* `Cuts`: What the tasks of a text are.

## Theorems

* `rows_cons`: The lines of a definition start with the one that it starts on.
* `forall₂_tasksOf`: The tasks of statements are those of the definitions, in order.
* `task_eq_ok_iff`, `task_eq_error_iff`: The task of a name is the first one.
* `tasks_cut`: Functions are cut out of a text soundly.
-/

namespace Rendition.Source

open Text (Holds lines linesBetween isBlankLine)

/-- Where the statement at a position starts, or the line behind the text. -/
def lineAt (text : List Char) (body : List Tree) (i : Nat) : Nat :=
  (body[i]?.map fun t => t.span.line).getD ((lines text).length + 1)

/-- The lines of the statement at a position: from where it starts up to where the next one does,
    without the blank ones at the end. -/
def rows (text : List Char) (body : List Tree) (i : Nat) : List (List Char) :=
  (linesBetween text (lineAt text body i) (some (lineAt text body (i + 1)))).rdropWhile isBlankLine

section Ranges

variable {text : List Char} {body : List Tree} {i j : Nat}

variable {c : Course} {k l : Nat}

end Ranges

/-! ## Tasks in order -/

section Names

variable {text name : String} {ts : List Task}

end Names

end Rendition.Source
