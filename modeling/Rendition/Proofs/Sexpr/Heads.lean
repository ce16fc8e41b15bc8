import Rendition.Proofs.Json.Equality
import Rendition.Proofs.Sexpr.Value

/-!
# Names that values start with

The value of a node starts with a name, unless the node is a constant. For a statement, and for an
expression, the name tells the kind of the node, apart from two cases: an augmented assignment
looks like an assignment, and an expression that is used as a statement has no name of its own, so
that a conditional expression looks like a conditional statement there.

## Main definitions

* `Sexpr.head?`: The name that a value starts with.
* `Sexpr.kindOf`: The kind of node that a name belongs to.

## Theorems

* `head_eq_of_agree`: Equal values start with the same name.
* `kindOf_assemble`, `kindOf_expression`: The kind of a node can be read off its value.
-/

namespace Rendition.Sexpr

/-- The name that a value starts with. -/
def head? : Json → Option String
  | .array (.string head :: _) => some head
  | _ => none

@[simp]
theorem head_form (head : String) (items : List Json) : head? (form head items) = some head :=
  rfl

/-- Equal values start with the same name. -/
theorem head_eq_of_agree {a b : Json} (h : a.agree b = true) : head? a = head? b := by
  cases a <;> cases b <;> try first | rfl | cases h
  case array.array as bs =>
    -- Both arrays have a first item, and these are equal.
    rw [Json.agree_array] at h
    rcases as with _ | ⟨a, as⟩ <;> rcases bs with _ | ⟨b, bs⟩ <;> try first | rfl | cases h
    rw [agreeList, Bool.and_eq_true] at h
    cases a <;> cases b <;> try first | rfl | cases h.1
    case string.string s s' =>
      rw [Json.agree_string, beq_iff_eq] at h
      exact congrArg some h.1

/-- The names of statements. -/
def statementHeads : List (String × NodeKind) :=
  [("std.fn", .functionDef), ("return", .returnStmt), ("set", .assign), ("if", .ifStmt),
    ("while", .whileLoop), ("for", .forLoop), ("pass", .passStmt), ("break", .breakStmt),
    ("continue", .continueStmt), ("try", .tryStmt), ("with", .withStmt), ("raise", .raiseStmt),
    ("class", .classDef), ("import", .importStmt)]

/-- The names of expressions. -/
def expressionHeads : List (String × NodeKind) :=
  [("var", .ident), ("compare", .compare), ("call", .call), ("attr", .attr), ("index", .subscript),
    ("slice", .slice), ("list", .list), ("tuple", .tuple), ("dict", .dict), ("if", .ifExp),
    ("lambda", .lambda)] ++
  Operator.all.map (fun op => (operatorHead op, .binOp)) ++
  UnaryOperator.all.map (fun op => (unaryHead op, .unaryOp)) ++
  Connective.all.map (fun op => (connectiveHead op, .boolOp))

/-- The kind of the nodes of a category whose values start with a name, or with none. -/
def kindOf : Category → Option String → NodeKind
  | .source, _ => .moduleDef
  | .statement, head => (head.bind (statementHeads.lookup ·)).getD .exprStmt
  | .expression, head => (head.bind (expressionHeads.lookup ·)).getD .constant

theorem head_constantValue (value : Literal) : head? (constantValue value) = none := by
  cases value with
  | float value =>
    rw [constantValue]
    split <;> rfl
  | _ => rfl

/-- The kind of an expression can be read off its value. -/
theorem kindOf_expression {node : Node Json} (h : node.kind.category = .expression) :
    kindOf .expression (head? (assemble node)) = node.kind := by
  cases node with
  | constant value => rw [assemble, head_constantValue]; rfl
  | binOp left op right => cases op <;> rfl
  | unaryOp op operand => cases op <;> rfl
  | boolOp op values => cases op <;> rfl
  | _ => first | rfl | cases h

/-- No expression but a conditional one starts like a statement. -/
theorem kindOf_exprStmt {node : Node Json} (h : node.kind.category = .expression)
    (hne : node.kind ≠ .ifExp) : kindOf .statement (head? (assemble node)) = .exprStmt := by
  cases node with
  | constant value => rw [assemble, head_constantValue]; rfl
  | binOp left op right => cases op <;> rfl
  | unaryOp op operand => cases op <;> rfl
  | boolOp op values => cases op <;> rfl
  | ifExp => exact absurd rfl hne
  | _ => first | rfl | cases h

/-- The kind of a node can be read off its value by what kind of nodes it is among. -/
theorem kindOf_assemble {node : Node Json} (haug : node.kind ≠ .augAssign)
    (hexpr : ∀ value, node = .exprStmt value → kindOf .statement (head? value) = .exprStmt) :
    kindOf node.kind.category (head? (assemble node)) = node.kind := by
  by_cases h : node.kind.category = .expression
  · rw [h]
    exact kindOf_expression h
  -- What is left has a name that no other statement has, apart from the two exceptions.
  cases node with
  | augAssign => exact absurd rfl haug
  | exprStmt value => exact hexpr value rfl
  | _ => first | rfl | exact absurd rfl h

end Rendition.Sexpr
