import Rendition.Tree.Serial
import Rendition.Tree.Traversal

/-!
# Tasks

A task is what a rendition works on: the syntax tree of a function, together with what is known
of the function that it was read from.

## Main definitions

* `SourceFunction`: The name, text and line of a function.
* `Task`: A function and its tree.
* `Task.ofTree`: The task of a tree that was not read from a text.
-/

namespace Rendition

/-- What is known of the function a task was made from. No rendition depends on it. -/
structure SourceFunction where
  name : String
  /-- The text of the definition. -/
  text : String
  /-- The line on which the definition starts. -/
  line : Nat
  deriving DecidableEq

/-- A function together with the tree to render. -/
structure Task where
  function : SourceFunction
  tree : Tree

namespace SourceFunction

/-- The serialized form of what is known of a function. -/
def encode (f : SourceFunction) : Json :=
  Json.ofMembers [("name", .string f.name), ("source", .string f.text), ("line", .int f.line)]

/-- What is known of a function, from its serialized form. -/
def decode? (value : Json) : Option SourceFunction := do
  let [name, text, line] ←
    Serial.record [Serial.required "name", Serial.required "source", Serial.required "line"] value
    | none
  return ⟨← name.string?, ← text.string?, ← line.nat64?⟩

end SourceFunction

namespace Task

/-- The serialized form of a task. -/
def encode (task : Task) : Json :=
  Json.ofMembers [("function", task.function.encode), ("syntax_tree", task.tree.encode)]

/-- The task of a serialized form. -/
def decode? (value : Json) : Option Task := do
  let [function, tree] ←
    Serial.record [Serial.required "function", Serial.required "syntax_tree"] value | none
  return ⟨← SourceFunction.decode? function, ← Tree.decode? tree⟩

/-- The name of a function definition. -/
def functionName? (t : Tree) : Option String :=
  match t.node with
  | .functionDef name _ _ => some name
  | _ => none

/-- The task of a tree that was not read from a text, named after the first function in it. -/
def ofTree (tree : Tree) : Task :=
  ⟨⟨(tree.traversal.toList.findSome? functionName?).getD "", "", tree.span.line⟩, tree⟩

end Task

end Rendition
