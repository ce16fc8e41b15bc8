import Rendition.Source.Concrete

/-!
# Parts of concrete syntax

The expressions directly inside an expression, and the statements and expressions directly inside a
statement. A part is smaller than the whole, so whatever holds of a construct when it holds of its
parts holds of all constructs.

## Main definitions

* `Expr.parts`: The expressions directly inside an expression.
* `Stmt.exprs`: The expressions directly inside a statement.
* `Stmt.parts`: The statements directly inside a statement.
* `Clause.excepts`, `Clause.finalSuite`: The clauses of a `try` statement, by their kinds.

## Theorems

* `Expr.inductionOn`: What holds of an expression if it holds of its parts holds of all.
* `Stmt.inductionOn`: The same for statements.
-/

namespace Rendition.Source

namespace Expr

/-- The expressions among arguments without a name. -/
def positional (args : List (Option String × Expr)) : List Expr :=
  args.filterMap fun arg => if arg.1.isNone then some arg.2 else none

/-- The arguments with a name. -/
def named (args : List (Option String × Expr)) : List (String × Expr) :=
  args.filterMap fun arg => arg.1.map fun name => (name, arg.2)

/-- The expressions directly inside an expression. -/
def parts : Expr → List Expr
  | unary _ _ operand => [operand]
  | negation _ operand => [operand]
  | binary _ left _ right => [left, right]
  | boolean _ left _ right => [left, right]
  | comparison _ left link links => left :: (link :: links).map Link.operand
  | conditional _ _ body test orelse => [body, test, orelse]
  | lambda _ _ body => [body]
  | attr _ object _ => [object]
  | subscript _ object index indices => object :: index :: indices
  | slice _ parts => parts.flatMap Option.toList
  | call _ func args => func :: args.map Prod.snd
  | list _ items => items
  | tuple _ items => items
  | sequence _ items => items
  | parens _ item items => item :: items
  | dict _ entries => entries.flatMap fun entry => entry.1 :: entry.2.toList
  | aliased _ value _ => [value]
  | splat _ argument => [argument]
  | _ => []

/-- The expression of an item of a `with` statement, without the name that it may get. -/
def context : Expr → Expr
  | aliased _ value _ => value
  | e => e

/-- A part is smaller than the whole. -/
theorem sizeOf_lt_of_mem_parts {e p : Expr} (h : p ∈ e.parts) : sizeOf p < sizeOf e := by
  cases e with
  | list span items | tuple span items | sequence span items =>
    have hlt : sizeOf p < sizeOf items := List.sizeOf_lt_of_mem h
    simp only [list.sizeOf_spec, tuple.sizeOf_spec, sequence.sizeOf_spec]
    omega
  | comparison span left link links =>
    simp only [parts, List.map_cons, List.mem_cons, List.mem_map] at h
    rcases link with ⟨before, op, after, operand⟩
    simp only [comparison.sizeOf_spec, Link.mk.sizeOf_spec]
    rcases h with rfl | rfl | ⟨⟨before', op', after', operand'⟩, hmem, rfl⟩
    · omega
    · omega
    · have hlt := List.sizeOf_lt_of_mem hmem
      simp only [Link.mk.sizeOf_spec] at hlt ⊢
      omega
  | parens span item items =>
    simp only [parens.sizeOf_spec]
    rcases List.mem_cons.mp h with rfl | hmem
    · omega
    · have hlt := List.sizeOf_lt_of_mem hmem
      omega
  | subscript span object index indices =>
    simp only [parts, List.mem_cons] at h
    simp only [subscript.sizeOf_spec]
    rcases h with rfl | rfl | hmem
    · omega
    · omega
    · have hlt := List.sizeOf_lt_of_mem hmem
      omega
  | slice span parts =>
    simp only [Expr.parts, List.mem_flatMap, Option.mem_toList] at h
    obtain ⟨part, hmem, rfl⟩ := h
    have hlt := List.sizeOf_lt_of_mem hmem
    simp only [slice.sizeOf_spec]
    simp only [Option.some.sizeOf_spec] at hlt
    omega
  | call span func args =>
    simp only [parts, List.mem_cons, List.mem_map] at h
    simp only [call.sizeOf_spec]
    rcases h with rfl | ⟨⟨name, value⟩, hmem, rfl⟩
    · omega
    · have hlt := List.sizeOf_lt_of_mem hmem
      simp only [Prod.mk.sizeOf_spec] at hlt ⊢
      omega
  | dict span entries =>
    simp only [parts, List.mem_flatMap, List.mem_cons, Option.mem_toList] at h
    obtain ⟨⟨key, value⟩, hmem, h⟩ := h
    have hlt := List.sizeOf_lt_of_mem hmem
    simp only [dict.sizeOf_spec]
    simp only [Prod.mk.sizeOf_spec] at hlt
    rcases h with rfl | rfl
    · omega
    · simp only [Option.some.sizeOf_spec] at hlt
      omega
  | _ =>
    simp only [parts, List.mem_cons, List.not_mem_nil, or_false] at h
    all_goals grind [unary.sizeOf_spec, negation.sizeOf_spec, binary.sizeOf_spec,
      boolean.sizeOf_spec, conditional.sizeOf_spec, lambda.sizeOf_spec, attr.sizeOf_spec,
      aliased.sizeOf_spec, splat.sizeOf_spec]

/-- What holds of every expression whose parts have it holds of all expressions. -/
theorem inductionOn {P : Expr → Prop} (step : ∀ e, (∀ p ∈ e.parts, P p) → P e) (e : Expr) : P e :=
  step e fun p _ => inductionOn step p
termination_by sizeOf e
decreasing_by exact sizeOf_lt_of_mem_parts ‹_›

end Expr

/-! ## Statements -/

/-- The expressions that an `except` clause reads, where `found` tells whether it catches something
    already: what comes second is a name, unless it is an expression with a name of its own. -/
def Caught.exprs : (found : Bool) → List Caught → List Expr
  | _, [] => []
  | _, ⟨.aliased _ value _, _⟩ :: rest => value :: exprs true rest
  | false, ⟨e, _⟩ :: rest => e :: exprs true rest
  | true, ⟨_, _⟩ :: rest => exprs true rest

namespace Clause

/-- The places, the expressions and the suites of the `except` clauses. -/
def excepts (clauses : List Clause) : List (Span × List Caught × List Stmt) :=
  clauses.filterMap fun
    | .except span caught body => some (span, caught, body)
    | _ => none

/-- The suite that is executed at last: that of the last `finally` clause with statements in it. -/
def finalSuite : List Clause → List Stmt
  | [] => []
  | .finally body :: rest =>
    let final := finalSuite rest
    if final.isEmpty then body else final
  | _ :: rest => finalSuite rest

/-- The expressions of a clause. -/
def exprs : Clause → List Expr
  | .except _ caught _ => Caught.exprs false caught
  | _ => []

end Clause

/-- The statements that are executed when a condition does not hold. A branch with a condition of
    its own is a conditional statement there. -/
def Branch.statements : List Branch → List Stmt
  | [] => []
  | .elifBranch span test body :: rest => [.ifStmt span test body rest]
  | .elseBranch body :: _ => body

namespace Stmt

/-- The expressions directly inside a statement. -/
def exprs : Stmt → List Expr
  | expression _ value => [value]
  | assign _ target value => target :: value.toList
  | augAssign _ target _ value => [target, value]
  | classDef _ _ bases _ => bases.toList.flatMap fun bases => bases.2.map Prod.snd
  | ifStmt _ test _ _ => [test]
  | whileLoop _ test _ _ => [test]
  | forLoop _ target iter _ _ => [target, iter]
  | tryStmt _ _ clauses => clauses.flatMap Clause.exprs
  | withStmt _ item items _ => (item :: items).map Expr.context
  | returnStmt _ value => value.toList
  | raiseStmt _ exception _ => exception.toList
  | _ => []

/-- The statements directly inside a statement. -/
def parts : Stmt → List Stmt
  | functionDef _ _ _ body => body
  | classDef _ _ _ body => body
  | ifStmt _ _ body branches => body ++ Branch.statements branches
  | whileLoop _ _ body _ => body
  | forLoop _ _ _ body _ => body
  | tryStmt _ body clauses =>
    body ++ (Clause.excepts clauses).flatMap (fun clause => clause.2.2) ++ Clause.finalSuite clauses
  | withStmt _ _ _ body => body
  | _ => []

/-- A statement of a handler is smaller than the clauses. -/
theorem sizeOf_lt_of_mem_excepts {clauses : List Clause} {c : Span × List Caught × List Stmt}
    {p : Stmt} (hc : c ∈ Clause.excepts clauses) (h : p ∈ c.2.2) : sizeOf p < sizeOf clauses := by
  obtain ⟨clause, hmem, hclause⟩ := List.mem_filterMap.mp hc
  have hlt := List.sizeOf_lt_of_mem hmem
  cases clause with
  | except span caught body =>
    cases hclause
    have hlt' : sizeOf p < sizeOf body := List.sizeOf_lt_of_mem h
    simp only [Clause.except.sizeOf_spec] at hlt
    omega
  | _ => cases hclause

/-- A statement that is executed at last is smaller than the clauses. -/
theorem sizeOf_lt_of_mem_finalSuite {clauses : List Clause} {p : Stmt}
    (h : p ∈ Clause.finalSuite clauses) : sizeOf p < sizeOf clauses := by
  induction clauses with
  | nil => cases h
  | cons clause rest ih =>
    simp only [List.cons.sizeOf_spec]
    cases clause with
    | «finally» body =>
      rw [Clause.finalSuite] at h
      simp only [Clause.finally.sizeOf_spec]
      split at h
      · have hlt := List.sizeOf_lt_of_mem h
        omega
      · have hlt := ih h
        omega
    | _ =>
      have hlt := ih h
      omega

/-- A branch that is taken is smaller than the conditional statement. -/
theorem sizeOf_lt_of_mem_branches {branches : List Branch} {p : Stmt}
    (h : p ∈ Branch.statements branches) : sizeOf p < sizeOf branches + 1 := by
  rcases branches with _ | ⟨⟨span, test, body⟩ | ⟨body⟩, rest⟩
  · cases h
  · obtain rfl := List.mem_singleton.mp h
    simp only [ifStmt.sizeOf_spec, List.cons.sizeOf_spec, Branch.elifBranch.sizeOf_spec]
    omega
  · have hlt := List.sizeOf_lt_of_mem (show p ∈ body from h)
    simp only [List.cons.sizeOf_spec, Branch.elseBranch.sizeOf_spec]
    omega

/-- A part is smaller than the whole. -/
theorem sizeOf_lt_of_mem_parts {s p : Stmt} (h : p ∈ s.parts) : sizeOf p < sizeOf s := by
  cases s with
  | functionDef span name params body =>
    have hlt : sizeOf p < sizeOf body := List.sizeOf_lt_of_mem h
    simp only [functionDef.sizeOf_spec]
    omega
  | classDef span name bases body =>
    have hlt : sizeOf p < sizeOf body := List.sizeOf_lt_of_mem h
    simp only [classDef.sizeOf_spec]
    omega
  | ifStmt span test body branches =>
    simp only [ifStmt.sizeOf_spec]
    rcases List.mem_append.mp h with hmem | hmem
    · have hlt := List.sizeOf_lt_of_mem hmem
      omega
    · have hlt := sizeOf_lt_of_mem_branches hmem
      omega
  | whileLoop span test body orelse =>
    have hlt : sizeOf p < sizeOf body := List.sizeOf_lt_of_mem h
    simp only [whileLoop.sizeOf_spec]
    omega
  | forLoop span target iter body orelse =>
    have hlt : sizeOf p < sizeOf body := List.sizeOf_lt_of_mem h
    simp only [forLoop.sizeOf_spec]
    omega
  | tryStmt span body clauses =>
    simp only [tryStmt.sizeOf_spec]
    rcases List.mem_append.mp h with h | hmem
    · rcases List.mem_append.mp h with hmem | hmem
      · have hlt := List.sizeOf_lt_of_mem hmem
        omega
      · obtain ⟨c, hc, hmem⟩ := List.mem_flatMap.mp hmem
        have hlt := sizeOf_lt_of_mem_excepts hc hmem
        omega
    · have hlt := sizeOf_lt_of_mem_finalSuite hmem
      omega
  | withStmt span item items body =>
    have hlt : sizeOf p < sizeOf body := List.sizeOf_lt_of_mem h
    simp only [withStmt.sizeOf_spec]
    omega
  | _ => cases h

/-- What holds of every statement whose parts have it holds of all statements. -/
theorem inductionOn {P : Stmt → Prop} (step : ∀ s, (∀ p ∈ s.parts, P p) → P s) (s : Stmt) : P s :=
  step s fun p _ => inductionOn step p
termination_by sizeOf s
decreasing_by exact sizeOf_lt_of_mem_parts ‹_›

end Stmt

end Rendition.Source
