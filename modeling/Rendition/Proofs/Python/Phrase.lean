import Rendition.Proofs.Source.Lexeme
import Rendition.Proofs.Tree.Grammatical
import Rendition.Rendering.Python

/-!
# The tokens of a rendition as Python

What a tree is rendered as, token by token: an expression is a phrase, a sequence of lexemes behind
some gap, and a statement is a list of lines, each a phrase at some depth.

## Main definitions

* `Python.Phrase`: Lexemes behind a gap.
* `Python.Line`: A phrase on a line of its own.
* `Python.Draft`: What a tree is rendered as, wherever it stands.
* `Python.phrase`, `Python.lines`: The phrase of an expression and the lines of a statement.

## Theorems

* `draft_mk`: One step of the definition.
-/

namespace Rendition.Python

open Source (Gap Lexeme)

/-- Lexemes behind a gap. -/
abbrev Phrase := Gap → List Lexeme

/-- A phrase on a line of its own. -/
structure Line where
  /-- The number of suites around the line. -/
  depth : Nat
  phrase : Phrase

/-- A name or a keyword. -/
def word (text : String) (g : Gap) : Lexeme :=
  ⟨g, .word, text⟩

/-- A mark. -/
def mark (text : String) (g : Gap) : Lexeme :=
  ⟨g, .mark, text⟩

/-- Phrases one after another with commas between them. -/
def row : List Phrase → Phrase
  | [], _ => []
  | p :: rest, g => p g ++ rest.flatMap fun q => mark "," {} :: q .blank

/-- A name with points in it. -/
def dotted (text : List Char) : Phrase := fun g =>
  match (text.splitOn '.').map String.ofList with
  | [] => []
  | name :: rest => word name g :: rest.flatMap fun name => [mark "." {}, word name {}]

/-- Points in a row: three at a time make up one mark. -/
def points : Nat → Phrase
  | n + 3, g => mark "..." g :: points n {}
  | n + 1, g => mark "." g :: points n {}
  | 0, _ => []

/-- The module that names are imported from. -/
def module (text : String) : Phrase := fun g =>
  let relative := text.toList.takeWhile (· = '.')
  let absolute := text.toList.dropWhile (· = '.')
  if absolute.isEmpty then points relative.length g
  else if relative.isEmpty then dotted absolute g
  else points relative.length g ++ dotted absolute {}

/-- A phrase followed by the name that it is bound to. -/
def aliased (p : Phrase) (asName : Option Phrase) : Phrase := fun g =>
  p g ++ match asName with
    | some asName => word "as" .blank :: asName .blank
    | none => []

/-- An imported name. -/
def imported (name : ImportedName) : Phrase :=
  if name.name = "*" then fun g => [mark "*" g]
  else aliased (dotted name.name.toList) (name.asName.map fun asName g => [word asName g])

/-- A constant. -/
def constant : Literal → Gap → Lexeme
  | .none => word "None"
  | .bool true => word "True"
  | .bool false => word "False"
  | .int value => fun g => ⟨g, .integer, toString value⟩
  | .float value => fun g => ⟨g, .float, Style.source.text value⟩
  | .str value => fun g => ⟨g, .string, Text.quote value⟩

/-- A comparison operator: one mark, or one or two words. -/
def comparison (op : Comparison) : List Lexeme :=
  op.words.map fun text => ⟨.blank, if op ∈ [.is, .isNot, .isIn, .notIn] then .word else .mark, text⟩

/-- What a tree is rendered as, wherever it stands. -/
structure Draft where
  /-- As an expression. -/
  phrase : Phrase
  /-- As an index. -/
  index : List Lexeme
  /-- As a statement. -/
  lines : List Line
  /-- As a further branch of a conditional statement, if it is one itself. -/
  branch : Option (List Line)

/-- Lexemes between parentheses. -/
def enclosed (inner : List Lexeme) : Phrase := fun g =>
  mark "(" g :: (inner ++ [mark ")" {}])

/-- A part of a phrase that may be absent. -/
def optional : Option Draft → Phrase
  | some draft => draft.phrase
  | none => fun _ => []

/-- The phrase of an expression. -/
def phraseOf : Node Draft → Phrase
  | .ident id => fun g => [word id g]
  | .constant value => fun g => [constant value g]
  | .binOp left op right =>
    enclosed (left.phrase {} ++ mark op.symbol .blank :: right.phrase .blank)
  | .unaryOp op operand =>
    enclosed (if op = .not then word "not" {} :: operand.phrase .blank
      else mark op.symbol {} :: operand.phrase {})
  | .compare left ops comparators =>
    enclosed (left.phrase {} ++
      (ops.zip comparators).flatMap fun link => comparison link.1 ++ link.2.phrase .blank)
  | .boolOp op values =>
    enclosed (match values with
      | [] => []
      | first :: rest => first.phrase {} ++
        rest.flatMap fun value => word op.symbol .blank :: value.phrase .blank)
  | .call func args keywords => fun g =>
    func.phrase g ++ enclosed (row (args.map Draft.phrase ++ keywords.map fun keyword g =>
      word keyword.name g :: mark "=" {} :: keyword.value.phrase {}) {}) {}
  | .attr value name => fun g => value.phrase g ++ [mark "." {}, word name {}]
  | .subscript value index => fun g =>
    value.phrase g ++ mark "[" {} :: (index.index ++ [mark "]" {}])
  | .slice lower upper step => fun g =>
    (match lower with
      | some lower => lower.phrase g ++ [mark ":" {}]
      | none => [mark ":" g]) ++ optional upper {} ++
    (match step with
      | some step => mark ":" {} :: step.phrase {}
      | none => [])
  | .list items => fun g => mark "[" g :: (row (items.map Draft.phrase) {} ++ [mark "]" {}])
  | .tuple [single] => enclosed (single.phrase {} ++ [mark "," {}])
  | .tuple items => enclosed (row (items.map Draft.phrase) {})
  | .dict entries => fun g =>
    mark "\x7b" g :: (row (entries.map fun entry g =>
      entry.1.phrase g ++ mark ":" {} :: entry.2.phrase .blank) {} ++ [mark "\x7d" {}])
  | .ifExp test body orelse =>
    enclosed (body.phrase {} ++ word "if" .blank :: test.phrase .blank ++
      word "else" .blank :: orelse.phrase .blank)
  | .lambda params body =>
    enclosed (word "lambda" {} :: row (params.map fun param g => [word param g]) .blank ++
      mark ":" {} :: body.phrase .blank)
  | _ => fun _ => []

/-- What stands between the brackets of a subscript: a tuple needs no parentheses there. -/
def indexOf : Node Draft → List Lexeme
  | .tuple (first :: rest) => row ((first :: rest).map Draft.phrase) {}
  | node => phraseOf node {}

/-! ## Lines -/

namespace Line

/-- A line one level deeper. -/
def deeper (line : Line) : Line :=
  { line with depth := line.depth + 1 }

/-- A line at the depth at hand. -/
def here (phrase : Phrase) : Line :=
  ⟨0, phrase⟩

end Line

/-- A suite: statements one level deeper, or `pass`. -/
def suiteLines (body : List Draft) : List Line :=
  let lines := if body.isEmpty then [Line.here fun g => [word "pass" g]]
    else body.flatMap Draft.lines
  lines.map Line.deeper

/-- A head and the suite below it. -/
def headedLines (head : Phrase) (body : List Draft) : List Line :=
  .here (fun g => head g ++ [mark ":" {}]) :: suiteLines body

/-- A conditional statement that starts with a keyword. -/
def conditionalLines (keyword : String) (test : Draft) (body orelse : List Draft) : List Line :=
  headedLines (fun g => word keyword g :: test.phrase .blank) body ++
    match orelse with
    | [] => []
    | [single] => match single.branch with
      | some lines => lines
      | none => headedLines (fun g => [word "else" g]) [single]
    | orelse => headedLines (fun g => [word "else" g]) orelse

/-- A clause of a `try` statement. -/
def handlerLines (handler : Handler Draft) : List Line :=
  headedLines (aliased (fun g => word "except" g :: optional handler.exception .blank)
    (handler.name.map fun name => dotted name.toList)) handler.body

/-- The lines of a statement. -/
def linesOf : Node Draft → List Line
  | .functionDef name params body =>
    headedLines (fun g => word "def" g :: word name .blank ::
      enclosed (row (params.map fun param g => [word param g]) {}) {}) body
  | .returnStmt value => [.here fun g => word "return" g :: optional value .blank]
  | .assign target value =>
    [.here fun g => target.phrase g ++ mark "=" .blank :: value.phrase .blank]
  | .augAssign target op value =>
    [.here fun g => target.phrase g ++ mark (op.symbol ++ "=") .blank :: value.phrase .blank]
  | .exprStmt value => [.here value.phrase]
  | .ifStmt test body orelse => conditionalLines "if" test body orelse
  | .whileLoop test body => headedLines (fun g => word "while" g :: test.phrase .blank) body
  | .forLoop target iter body =>
    headedLines (fun g => word "for" g :: target.phrase .blank ++
      word "in" .blank :: iter.phrase .blank) body
  | .passStmt => [.here fun g => [word "pass" g]]
  | .breakStmt => [.here fun g => [word "break" g]]
  | .continueStmt => [.here fun g => [word "continue" g]]
  | .tryStmt body handlers finalbody =>
    headedLines (fun g => [word "try" g]) body ++ handlers.flatMap handlerLines ++
      if finalbody.isEmpty then [] else headedLines (fun g => [word "finally" g]) finalbody
  | .withStmt items body =>
    headedLines (fun g => word "with" g :: row (items.map fun item => aliased item.context.phrase
      (item.asName.map fun name => dotted name.toList)) .blank) body
  | .raiseStmt exception => [.here fun g => word "raise" g :: optional exception .blank]
  | .classDef name bases body =>
    headedLines (fun g => word "class" g :: word name .blank ::
      if bases.isEmpty then [] else enclosed (row (bases.map Draft.phrase) {}) {}) body
  | .importStmt none names =>
    [.here fun g => word "import" g :: row (names.map imported) .blank]
  | .importStmt (some source) names =>
    [.here fun g => word "from" g :: module source .blank ++
      word "import" .blank :: row (names.map imported) .blank]
  | _ => []

/-- The lines of a conditional statement as a further branch. -/
def branchOf : Node Draft → Option (List Line)
  | .ifStmt test body orelse => some (conditionalLines "elif" test body orelse)
  | _ => none

/-- What a node is rendered as, from what its children are rendered as. -/
def draftOf (node : Node Draft) : Draft :=
  ⟨phraseOf node, indexOf node, linesOf node, branchOf node⟩

/-- What a tree is rendered as. -/
def draft (t : Tree) : Draft :=
  t.fold fun _ node => draftOf node

theorem draft_mk (span : Span) (node : Node Tree) :
    draft (.mk span node) = draftOf (node.map draft) := by
  rw [draft, Tree.fold_mk]
  rfl

/-- The phrase of an expression. -/
def phrase (t : Tree) : Phrase :=
  (draft t).phrase

/-- The lines of a statement. -/
def lines (t : Tree) : List Line :=
  (draft t).lines

section Equations

variable (span : Span)

theorem phrase_mk (node : Node Tree) : phrase (.mk span node) = phraseOf (node.map draft) := by
  rw [phrase, draft_mk]
  rfl

theorem lines_mk (node : Node Tree) : lines (.mk span node) = linesOf (node.map draft) := by
  rw [lines, draft_mk]
  rfl

theorem draft_phrase (t : Tree) : (draft t).phrase = phrase t := rfl

theorem map_phrase_draft (ts : List Tree) :
    (ts.map draft).map Draft.phrase = ts.map phrase := by
  rw [List.map_map]
  rfl

theorem phrase_ident (id : String) : phrase (.mk span (.ident id)) = fun g => [word id g] :=
  phrase_mk span _

theorem phrase_constant (value : Literal) :
    phrase (.mk span (.constant value)) = fun g => [constant value g] :=
  phrase_mk span _

theorem phrase_binOp (left right : Tree) (op : Operator) :
    phrase (.mk span (.binOp left op right)) =
      enclosed (phrase left {} ++ mark op.symbol .blank :: phrase right .blank) :=
  phrase_mk span _

theorem phrase_unaryOp (op : UnaryOperator) (operand : Tree) :
    phrase (.mk span (.unaryOp op operand)) =
      enclosed (if op = .not then word "not" {} :: phrase operand .blank
        else mark op.symbol {} :: phrase operand {}) :=
  phrase_mk span _

theorem phrase_compare (left : Tree) (ops : List Comparison) (comparators : List Tree) :
    phrase (.mk span (.compare left ops comparators)) =
      enclosed (phrase left {} ++
        (ops.zip comparators).flatMap fun link => comparison link.1 ++ phrase link.2 .blank) := by
  rw [phrase_mk]
  simp only [Node.map, phraseOf, draft_phrase, List.zip_map_right, List.flatMap_map, Prod.map_fst,
    Prod.map_snd, id]

theorem phrase_boolOp (op : Connective) (first : Tree) (rest : List Tree) :
    phrase (.mk span (.boolOp op (first :: rest))) =
      enclosed (phrase first {} ++
        rest.flatMap fun value => word op.symbol .blank :: phrase value .blank) := by
  rw [phrase_mk]
  simp only [Node.map, phraseOf, List.map_cons, draft_phrase, List.flatMap_map]

/-- A keyword argument. -/
def keywordPhrase (keyword : Keyword Tree) : Phrase := fun g =>
  word keyword.name g :: mark "=" {} :: phrase keyword.value {}

theorem phrase_call (func : Tree) (args : List Tree) (keywords : List (Keyword Tree)) :
    phrase (.mk span (.call func args keywords)) = fun g => phrase func g ++
      enclosed (row (args.map phrase ++ keywords.map keywordPhrase) {}) {} := by
  rw [phrase_mk]
  simp only [Node.map, phraseOf, draft_phrase, List.map_map]
  rfl

theorem phrase_attr (value : Tree) (name : String) :
    phrase (.mk span (.attr value name)) = fun g =>
      phrase value g ++ [mark "." {}, word name {}] :=
  phrase_mk span _

/-- The phrase of an index. -/
def indexPhrase (t : Tree) : List Lexeme :=
  (draft t).index

theorem phrase_subscript (value index : Tree) :
    phrase (.mk span (.subscript value index)) = fun g =>
      phrase value g ++ mark "[" {} :: (indexPhrase index ++ [mark "]" {}]) :=
  phrase_mk span _

/-- The indices of a subscript stand one after another. -/
theorem indexPhrase_eq (t : Tree) : indexPhrase t = row (t.indices.map phrase) {} := by
  rcases t with ⟨span, node⟩
  have hindex : indexPhrase (.mk span node) = indexOf (node.map draft) := by
    rw [indexPhrase, draft_mk]
    rfl
  have hsingle : row [phrase (.mk span node)] {} = phrase (.mk span node) {} := by
    simp only [row, List.flatMap_nil, List.append_nil]
  rw [hindex]
  cases node with
  | tuple items =>
    rcases items with _ | ⟨first, rest⟩
    · rw [Tree.indices, Tree.node_mk, List.map_singleton, hsingle, phrase_mk]
      rfl
    · simp only [Node.map, indexOf, Tree.indices, Tree.node_mk, List.map_cons, map_phrase_draft,
        draft_phrase]
  | _ =>
    rw [Tree.indices, Tree.node_mk, List.map_singleton, hsingle, phrase_mk]
    rfl

/-- A part of a phrase that may be absent. -/
def optionalPhrase (t : Option Tree) : Phrase :=
  optional (t.map draft)

/-- The lower bound of a slice and the colon behind it. -/
def lowerPhrase : Option Tree → Phrase
  | some lower => fun g => phrase lower g ++ [mark ":" {}]
  | none => fun g => [mark ":" g]

/-- The step of a slice and the colon before it. -/
def stepPhrase : Option Tree → List Lexeme
  | some step => mark ":" {} :: phrase step {}
  | none => []

theorem phrase_slice (lower upper step : Option Tree) :
    phrase (.mk span (.slice lower upper step)) = fun g =>
      lowerPhrase lower g ++ optionalPhrase upper {} ++ stepPhrase step := by
  rw [phrase_mk]
  funext g
  cases lower <;> cases step <;> rfl

theorem phrase_list (items : List Tree) :
    phrase (.mk span (.list items)) = fun g =>
      mark "[" g :: (row (items.map phrase) {} ++ [mark "]" {}]) := by
  rw [phrase_mk]
  simp only [Node.map, phraseOf, map_phrase_draft]

theorem phrase_tuple_single (single : Tree) :
    phrase (.mk span (.tuple [single])) = enclosed (phrase single {} ++ [mark "," {}]) :=
  phrase_mk span _

theorem phrase_tuple (items : List Tree) (h : items.length ≠ 1) :
    phrase (.mk span (.tuple items)) = enclosed (row (items.map phrase) {}) := by
  rw [phrase_mk]
  rcases items with _ | ⟨first, _ | ⟨second, rest⟩⟩
  · rfl
  · exact absurd rfl h
  · simp only [Node.map, phraseOf, List.map_cons, map_phrase_draft, draft_phrase]

/-- An entry of a dictionary. -/
def entryPhrase (entry : Tree × Tree) : Phrase := fun g =>
  phrase entry.1 g ++ mark ":" {} :: phrase entry.2 .blank

theorem phrase_dict (entries : List (Tree × Tree)) :
    phrase (.mk span (.dict entries)) = fun g =>
      mark "\x7b" g :: (row (entries.map entryPhrase) {} ++ [mark "\x7d" {}]) := by
  rw [phrase_mk]
  simp only [Node.map, phraseOf, List.map_map]
  rfl

theorem phrase_ifExp (test body orelse : Tree) :
    phrase (.mk span (.ifExp test body orelse)) =
      enclosed (phrase body {} ++ word "if" .blank :: phrase test .blank ++
        word "else" .blank :: phrase orelse .blank) :=
  phrase_mk span _

theorem phrase_lambda (params : List String) (body : Tree) :
    phrase (.mk span (.lambda params body)) =
      enclosed (word "lambda" {} :: row (params.map fun param g => [word param g]) .blank ++
        mark ":" {} :: phrase body .blank) :=
  phrase_mk span _

end Equations

end Rendition.Python
