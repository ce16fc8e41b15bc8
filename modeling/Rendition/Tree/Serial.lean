import Rendition.Json.Basic
import Rendition.Tree.Basic

/-!
# Serialized trees

The form of syntax trees as JSON values. A record is written as an object with all its fields. On
reading, unknown fields are ignored, an absent field that may be `null` is taken as `null`, and a
record may also be given as an array of its fields in order. A choice is an object whose only key
names the alternative, or just the name if the alternative holds nothing.

## Main definitions

* `Serial.record`: The fields of a record, from either form.
* `Serial.choice?`: The alternative of a choice and what it holds.
* `Tree.encode`: The serialized form of a tree.
* `Tree.decode?`: The tree of a serialized form.
-/

namespace Rendition

namespace Serial

/-- The values of the fields of a record, in the given order. A field marked optional may be
    absent from an object. -/
def record (fields : List (String × Bool)) : Json → Option (List Json)
  | .object members => fields.mapM fun (key, optional) =>
    match members.lookup key with
    | some value => some value
    | none => if optional then some .null else none
  | .array items => if items.length = fields.length then some items else none
  | _ => none

/-- The name of an alternative and the value that it holds, if any. -/
def choice? : Json → Option (String × Option Json)
  | .string name => some (name, none)
  | .object [(name, value)] => some (name, some value)
  | _ => none

/-- The name of an alternative that holds nothing. -/
def unit? (value : Json) : Option String :=
  match choice? value with
  | some (name, none) => some name
  | some (name, some .null) => some name
  | _ => none

/-- A required field. -/
def required (key : String) : String × Bool :=
  (key, false)

/-- A field that may be absent. -/
def optional (key : String) : String × Bool :=
  (key, true)

end Serial

open Serial

namespace Span

/-- The serialized form of a place. -/
def encode (s : Span) : Json :=
  .object [("column", .int s.column), ("line", .int s.line)]

/-- The place of a serialized form. -/
def decode? (value : Json) : Option Span := do
  let [line, column] ← record [required "line", required "column"] value | none
  return ⟨← line.nat64?, ← column.nat64?⟩

end Span

namespace Literal

/-- The serialized form of a constant, where `float` writes the floating-point numbers. -/
def encode (float : Float → Json) : Literal → Json
  | none => .string "None"
  | bool value => .object [("Bool", .bool value)]
  | int value => .object [("Int", .int value)]
  | .float value => .object [("Float", float value)]
  | str value => .object [("Str", .string value)]

/-- The constant of a serialized form. -/
def decode? (value : Json) : Option Literal := do
  match ← choice? value with
  | ("None", Option.none) => return none
  | ("None", some .null) => return none
  | ("Bool", some value) => return bool (← value.bool?)
  | ("Int", some value) => return int (← value.int64?)
  | ("Float", some value) => return float (← value.float?)
  | ("Str", some value) => return str (← value.string?)
  | _ => Option.none

end Literal

namespace ImportedName

/-- The serialized form of an imported name. -/
def encode (name : ImportedName) : Json :=
  .object [("alias", Json.ofString? name.asName), ("name", .string name.name)]

/-- The imported name of a serialized form. -/
def decode? (value : Json) : Option ImportedName := do
  let [name, asName] ← record [required "name", optional "alias"] value | none
  return ⟨← name.string?, ← asName.nullable? Json.string?⟩

end ImportedName

namespace Node

/-- An alternative that holds a record. -/
def encodeFields (kind : NodeKind) (fields : List (String × Json)) : Json :=
  .object [(kind.tag, Json.ofMembers fields)]

/-- A value that may be absent. -/
def encodeOption : Option Json → Json
  | none => .null
  | some value => value

/-- The serialized form of a clause of a `try` statement. -/
def encodeHandler (h : Handler Json) : Json :=
  Json.ofMembers [("span", h.span.encode), ("exception", encodeOption h.exception),
    ("name", Json.ofString? h.name), ("body", .array h.body)]

/-- The serialized form of an item of a `with` statement. -/
def encodeItem (item : WithItem Json) : Json :=
  Json.ofMembers [("context", item.context), ("alias", Json.ofString? item.asName)]

/-- The serialized form of a keyword argument. -/
def encodeKeyword (keyword : Keyword Json) : Json :=
  Json.ofMembers [("name", .string keyword.name), ("value", keyword.value)]

/-- The serialized form of a node, from those of its children. -/
def encode (float : Float → Json) : Node Json → Json
  | moduleDef body => encodeFields .moduleDef [("body", .array body)]
  | functionDef name params body => encodeFields .functionDef
    [("name", .string name), ("params", Json.ofStrings params), ("body", .array body)]
  | returnStmt value => .object [(NodeKind.returnStmt.tag, encodeOption value)]
  | assign target value => encodeFields .assign [("target", target), ("value", value)]
  | augAssign target op value =>
    encodeFields .augAssign [("target", target), ("op", .string op.name), ("value", value)]
  | exprStmt value => .object [(NodeKind.exprStmt.tag, value)]
  | ifStmt test body orelse =>
    encodeFields .ifStmt [("test", test), ("body", .array body), ("orelse", .array orelse)]
  | whileLoop test body => encodeFields .whileLoop [("test", test), ("body", .array body)]
  | forLoop target iter body =>
    encodeFields .forLoop [("target", target), ("iter", iter), ("body", .array body)]
  | passStmt => .string NodeKind.passStmt.tag
  | breakStmt => .string NodeKind.breakStmt.tag
  | continueStmt => .string NodeKind.continueStmt.tag
  | tryStmt body handlers finalbody => encodeFields .tryStmt
    [("body", .array body), ("handlers", .array (handlers.map encodeHandler)),
      ("finalbody", .array finalbody)]
  | withStmt items body =>
    encodeFields .withStmt [("items", .array (items.map encodeItem)), ("body", .array body)]
  | raiseStmt exception => .object [(NodeKind.raiseStmt.tag, encodeOption exception)]
  | classDef name bases body => encodeFields .classDef
    [("name", .string name), ("bases", .array bases), ("body", .array body)]
  | importStmt source names => encodeFields .importStmt
    [("module", Json.ofString? source), ("names", .array (names.map ImportedName.encode))]
  | ident id => .object [(NodeKind.ident.tag, .string id)]
  | constant value => .object [(NodeKind.constant.tag, value.encode float)]
  | binOp left op right =>
    encodeFields .binOp [("left", left), ("op", .string op.name), ("right", right)]
  | unaryOp op operand => encodeFields .unaryOp [("op", .string op.name), ("operand", operand)]
  | compare left ops comparators => encodeFields .compare
    [("left", left), ("ops", Json.ofStrings (ops.map Comparison.name)),
      ("comparators", .array comparators)]
  | boolOp op values => encodeFields .boolOp [("op", .string op.name), ("values", .array values)]
  | call func args keywords => encodeFields .call
    [("func", func), ("args", .array args), ("keywords", .array (keywords.map encodeKeyword))]
  | attr value name => encodeFields .attr [("value", value), ("attr", .string name)]
  | subscript value index => encodeFields .subscript [("value", value), ("index", index)]
  | slice lower upper step => encodeFields .slice
    [("lower", encodeOption lower), ("upper", encodeOption upper), ("step", encodeOption step)]
  | list items => .object [(NodeKind.list.tag, .array items)]
  | tuple items => .object [(NodeKind.tuple.tag, .array items)]
  | dict entries => encodeFields .dict
    [("entries", .array (entries.map fun entry => .array [entry.1, entry.2]))]
  | ifExp test body orelse =>
    encodeFields .ifExp [("test", test), ("body", body), ("orelse", orelse)]
  | lambda params body =>
    encodeFields .lambda [("params", Json.ofStrings params), ("body", body)]

section Decode

variable {α : Type} (child : Json → Option α)

/-- The clause of a serialized form. -/
def decodeHandler? (value : Json) : Option (Handler α) := do
  let [span, exception, name, body] ←
    record [required "span", optional "exception", optional "name", required "body"] value | none
  return ⟨← Span.decode? span, ← exception.nullable? child, ← name.nullable? Json.string?,
    ← body.list? child⟩

/-- The item of a serialized form. -/
def decodeItem? (value : Json) : Option (WithItem α) := do
  let [context, asName] ← record [required "context", optional "alias"] value | none
  return ⟨← child context, ← asName.nullable? Json.string?⟩

/-- The keyword argument of a serialized form. -/
def decodeKeyword? (value : Json) : Option (Keyword α) := do
  let [name, value] ← record [required "name", required "value"] value | none
  return ⟨← name.string?, ← child value⟩

/-- The entry of a serialized form. -/
def decodePair? : Json → Option (α × α)
  | .array [key, value] => do return (← child key, ← child value)
  | _ => none

/-- The node of the given kind that holds the given value. -/
def decodeAs? (kind : NodeKind) (value : Json) : Option (Node α) := do
  match kind with
  | .moduleDef =>
    let [body] ← record [required "body"] value | none
    return moduleDef (← body.list? child)
  | .functionDef =>
    let [name, params, body] ← record [required "name", required "params", required "body"] value
      | none
    return functionDef (← name.string?) (← params.list? Json.string?) (← body.list? child)
  | .returnStmt => return returnStmt (← value.nullable? child)
  | .assign =>
    let [target, value] ← record [required "target", required "value"] value | none
    return assign (← child target) (← child value)
  | .augAssign =>
    let [target, op, value] ← record [required "target", required "op", required "value"] value
      | none
    return augAssign (← child target) (← (unit? op).bind Operator.ofName?) (← child value)
  | .exprStmt => return exprStmt (← child value)
  | .ifStmt =>
    let [test, body, orelse] ← record [required "test", required "body", required "orelse"] value
      | none
    return ifStmt (← child test) (← body.list? child) (← orelse.list? child)
  | .whileLoop =>
    let [test, body] ← record [required "test", required "body"] value | none
    return whileLoop (← child test) (← body.list? child)
  | .forLoop =>
    let [target, iter, body] ← record [required "target", required "iter", required "body"] value
      | none
    return forLoop (← child target) (← child iter) (← body.list? child)
  | .passStmt => match value with
    | .null => return passStmt
    | _ => none
  | .breakStmt => match value with
    | .null => return breakStmt
    | _ => none
  | .continueStmt => match value with
    | .null => return continueStmt
    | _ => none
  | .tryStmt =>
    let [body, handlers, finalbody] ←
      record [required "body", required "handlers", required "finalbody"] value | none
    return tryStmt (← body.list? child) (← handlers.list? (decodeHandler? child))
      (← finalbody.list? child)
  | .withStmt =>
    let [items, body] ← record [required "items", required "body"] value | none
    return withStmt (← items.list? (decodeItem? child)) (← body.list? child)
  | .raiseStmt => return raiseStmt (← value.nullable? child)
  | .classDef =>
    let [name, bases, body] ← record [required "name", required "bases", required "body"] value
      | none
    return classDef (← name.string?) (← bases.list? child) (← body.list? child)
  | .importStmt =>
    let [source, names] ← record [optional "module", required "names"] value | none
    return importStmt (← source.nullable? Json.string?) (← names.list? ImportedName.decode?)
  | .ident => return ident (← value.string?)
  | .constant => return constant (← Literal.decode? value)
  | .binOp =>
    let [left, op, right] ← record [required "left", required "op", required "right"] value | none
    return binOp (← child left) (← (unit? op).bind Operator.ofName?) (← child right)
  | .unaryOp =>
    let [op, operand] ← record [required "op", required "operand"] value | none
    return unaryOp (← (unit? op).bind UnaryOperator.ofName?) (← child operand)
  | .compare =>
    let [left, ops, comparators] ←
      record [required "left", required "ops", required "comparators"] value | none
    return compare (← child left)
      (← ops.list? fun op => (unit? op).bind Comparison.ofName?) (← comparators.list? child)
  | .boolOp =>
    let [op, values] ← record [required "op", required "values"] value | none
    return boolOp (← (unit? op).bind Connective.ofName?) (← values.list? child)
  | .call =>
    let [func, args, keywords] ←
      record [required "func", required "args", required "keywords"] value
      | none
    return call (← child func) (← args.list? child) (← keywords.list? (decodeKeyword? child))
  | .attr =>
    let [value, name] ← record [required "value", required "attr"] value | none
    return attr (← child value) (← name.string?)
  | .subscript =>
    let [value, index] ← record [required "value", required "index"] value | none
    return subscript (← child value) (← child index)
  | .slice =>
    let [lower, upper, step] ← record [optional "lower", optional "upper", optional "step"] value
      | none
    return slice (← lower.nullable? child) (← upper.nullable? child) (← step.nullable? child)
  | .list => return list (← value.list? child)
  | .tuple => return tuple (← value.list? child)
  | .dict =>
    let [entries] ← record [required "entries"] value | none
    return dict (← entries.list? (decodePair? child))
  | .ifExp =>
    let [test, body, orelse] ← record [required "test", required "body", required "orelse"] value
      | none
    return ifExp (← child test) (← child body) (← child orelse)
  | .lambda =>
    let [params, body] ← record [required "params", required "body"] value | none
    return lambda (← params.list? Json.string?) (← child body)

/-- The node of a serialized form, its children read by `child`. -/
def decode? (value : Json) : Option (Node α) := do
  match ← choice? value with
  | ("Pass", none) => return passStmt
  | ("Break", none) => return breakStmt
  | ("Continue", none) => return continueStmt
  | (_, none) => none
  | (tag, some value) => decodeAs? child (← NodeKind.ofTag? tag) value

end Decode

end Node

namespace Tree

/-- The serialized form of a tree, where `float` writes the floating-point numbers. -/
def encodeWith (float : Float → Json) (t : Tree) : Json :=
  t.fold fun span node => .object [("node", node.encode float), ("span", span.encode)]

/-- The serialized form of a tree. -/
def encode (t : Tree) : Json :=
  t.encodeWith Json.ofFloat

/-- The tree of a serialized form whose height is below `fuel`. -/
def decodeWithin? : Nat → Json → Option Tree
  | 0, _ => none
  | fuel + 1, value => do
    let [span, node] ← record [required "span", required "node"] value | none
    return mk (← Span.decode? span) (← Node.decode? (decodeWithin? fuel) node)

/-- The tree of a serialized form. -/
def decode? (value : Json) : Option Tree :=
  decodeWithin? value.height value

end Tree

end Rendition
