import Rendition.Source.Parser
import Rendition.Source.Reading
import Rendition.Task
import Rendition.Text.Lines

/-!
# Reading source texts

A source text is read as one tree, or function by function. The text of a function runs from the
line on which its definition starts to the next statement of the source.

## Main definitions

* `read`: The tree of a source text.
* `tasks`: A task for each function that the source defines.
* `task`: The task of the function with a given name.
-/

namespace Rendition.Source

/-- The statements of a source text as trees. -/
def readStatements (text : String) : Except ReadError (List Tree) :=
  match parse? text.toList with
  | some statements => readSuite statements
  | none => .error .syntaxError

/-- The tree of a source text. -/
def read (text : String) : Except ReadError Tree := do
  return .mk ⟨1, 0⟩ (.moduleDef (← readStatements text))

/-- A task for each function among statements. The text of a function ends where the next statement
    starts. -/
def tasksOf (text : List Char) : List Tree → List Task
  | [] => []
  | statement :: rest =>
    match Task.functionName? statement with
    | none => tasksOf text rest
    | some name =>
      let line := statement.span.line
      let excerpt := Text.excerpt text line (rest.head?.map fun next => next.span.line)
      let function : SourceFunction := ⟨name, String.ofList (Text.joinLines excerpt), line⟩
      ⟨function, .mk ⟨line, 0⟩ (.moduleDef [statement])⟩ :: tasksOf text rest

/-- A task for each function that the source text defines outside other constructs. -/
def tasks (text : String) : Except ReadError (List Task) :=
  (readStatements text).map (tasksOf text.toList)

/-- The task of the first function with the given name. -/
def task (text name : String) : Except ReadError Task := do
  match (← tasks text).find? fun task => task.function.name == name with
  | some task => return task
  | none => throw (.functionNotFound name)

end Rendition.Source
