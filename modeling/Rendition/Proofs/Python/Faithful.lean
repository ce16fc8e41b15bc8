import Rendition.Proofs.Tree.Grammatical
import Rendition.Source.Constant
import Rendition.Rendering.Python

/-!
# What Python can render faithfully

Not every tree that was read from a text is rendered as a text that is read as the same tree. What
is lost stands in a node and its children, so the trees that keep their structure are told by a
condition on each node.

## Main definitions

* `Tree.opening`: How an expression starts.
* `Python.Faithful`: Nodes that are read as they were rendered.
-/

namespace Rendition

namespace Text

/-- Whether a text is a name with points in it. -/
def IsDotted (text : List Char) : Prop :=
  ∀ part ∈ text.splitOn '.', IsIdentifier (String.ofList part)

/-- Whether a text names a module: points, or a name behind points. -/
def IsModule (text : String) : Prop :=
  text ≠ "" ∧ (text.toList.dropWhile (· = '.') = [] ∨
    IsDotted (text.toList.dropWhile (· = '.')))

end Text

/-- How an expression starts: with a name alone, with a name in front of a bracket, or otherwise. -/
inductive Opening where
  | name (id : String)
  | bracketed (id : String)
  | other
  deriving DecidableEq

namespace Opening

/-- How a call or a subscript starts. -/
def bracket : Opening → Opening
  | name id => bracketed id
  | opening => opening

/-- How an attribute starts. -/
def point : Opening → Opening
  | name _ => other
  | opening => opening

end Opening

/-- How an expression starts. -/
def Tree.opening (t : Tree) : Opening :=
  t.fold fun _ node => match node with
    | .ident id => .name id
    | .attr value _ => value.point
    | .call func _ _ => func.bracket
    | .subscript value _ => value.bracket
    | _ => .other

namespace Python

/-- Whether a tree is the name `await`. -/
def isAwait (t : Tree) : Prop :=
  t.node = .ident "await"

/-- Whether a statement can start with an expression: the words `match` and `type` in front of a
    bracket start statements of their own. -/
def startsPlainly (t : Tree) : Prop :=
  t.opening ≠ .bracketed "match" ∧ t.opening ≠ .bracketed "type"

/-- Whether a name can be imported: all of a module, or a name with points in it. -/
def IsImported (name : ImportedName) : Prop :=
  name = ⟨"*", none⟩ ∨
    (Text.IsDotted name.name.toList ∧ ∀ asName ∈ name.asName, Text.IsIdentifier asName)

/-- Nodes that are read as they were rendered. -/
def Faithful : Node Tree → Prop
  -- The value survives its decimal form, and the characters survive the literal.
  | .constant (.float value) =>
    ∃ y, Source.floatValue? (Style.source.text value) = some y ∧ (value == y) = true
  | .constant (.str text) => ∀ c ∈ text.toList, c.toNat ≠ 0
  -- A point behind an integer belongs to the number.
  | .attr value _ => ∀ n, value.node ≠ .constant (.int n)
  -- In front of an operand `await` is an operator.
  | .call func _ _ => ¬isAwait func
  | .binOp left op _ => isAwait left → op ∉ [.add, .sub, .mult]
  -- A tuple of one element is written like the element.
  | .subscript value index => ¬isAwait value ∧ ∀ item, index.node ≠ .tuple [item]
  | .exprStmt value => startsPlainly value ∧ value.node ≠ .ident "match"
  | .assign target _ => startsPlainly target
  | .augAssign target _ _ => startsPlainly target
  -- A suite without statements is written as `pass`.
  | .functionDef _ _ body => body ≠ []
  | .classDef _ _ body => body ≠ []
  | .ifStmt _ body _ => body ≠ []
  | .whileLoop _ body => body ≠ []
  | .forLoop _ _ body => body ≠ []
  | .tryStmt body handlers _ => body ≠ [] ∧ ∀ h ∈ handlers, h.body ≠ [] ∧
    ∀ name ∈ h.name, Text.IsDotted name.toList
  -- The parentheses of a tuple that stands alone are taken for those of the items.
  | .withStmt items body => body ≠ [] ∧
    (∀ i ∈ items, ∀ name ∈ i.asName, Text.IsDotted name.toList) ∧
    ∀ context first second rest, items = [⟨context, none⟩] →
      context.node ≠ .tuple (first :: second :: rest)
  | .importStmt source names => (∀ name ∈ names, IsImported name) ∧
    (⟨"*", none⟩ ∈ names → source.isSome ∧ names = [⟨"*", none⟩]) ∧
    ∀ text ∈ source, Text.IsModule text ∧
      (text.toList.splitOn '.').head? ≠ some "__future__".toList
  | _ => True

end Python

end Rendition
