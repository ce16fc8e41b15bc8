import Rendition.Operator
import Rendition.Span
import Rendition.Tree.Node

/-!
# Concrete syntax

What the grammar makes of a sequence of tokens, before it is known whether the constructs have a
counterpart among syntax trees. Parentheses, separators and types are gone where nothing depends
on them. Line continuations are kept where they stand among the parts of a construct, because a
construct that lists its parts cannot be read with one among them.

## Main definitions

* `Expr`: Expressions, and the assignment targets written like them.
* `Param`: Parameters of functions.
* `Stmt`: Statements, and the clauses of compound statements.
* `Expr.isPattern`: Whether an expression can be assigned to.
-/

namespace Rendition.Source

/-- A comparison operator and what stands around it. -/
structure Link (α : Type) where
  /-- The first line continuation before the operator. -/
  before : Option Span
  /-- The operator as it is written. -/
  op : String
  /-- The first line continuation after the operator. -/
  after : Option Span
  operand : α

/-- A parameter of a function. -/
inductive Param where
  /-- A name, with or without a type. -/
  | named (name : String)
  /-- Anything else, by the name of its construct. -/
  | other (span : Span) (construct : String)
  deriving DecidableEq

/-- An expression. -/
inductive Expr where
  | ident (span : Span) (name : String)
  | integer (span : Span) (text : String)
  | float (span : Span) (text : String)
  | string (span : Span) (text : String)
  /-- String literals one after another. -/
  | strings (span : Span) (literals : List (Span × String))
  | truth (span : Span) (value : Bool)
  | nothing (span : Span)
  | unary (span : Span) (op : UnaryOperator) (operand : Expr)
  | negation (span : Span) (operand : Expr)
  | binary (span : Span) (left : Expr) (op : Operator) (right : Expr)
  | boolean (span : Span) (left : Expr) (op : Connective) (right : Expr)
  /-- A chain of at least one comparison. -/
  | comparison (span : Span) (left : Expr) (link : Link Expr) (links : List (Link Expr))
  /-- `body if test else orelse`, possibly with a line continuation among its parts. -/
  | conditional (span : Span) (continued : Bool) (body test orelse : Expr)
  | lambda (span : Span) (params : List Param) (body : Expr)
  | attr (span : Span) (object : Expr) (name : String)
  /-- A subscript with at least one index. -/
  | subscript (span : Span) (object index : Expr) (indices : List Expr)
  /-- The parts of a slice, a colon being `none`. -/
  | slice (span : Span) (parts : List (Option Expr))
  /-- A call with its arguments, those with a name being keyword arguments. -/
  | call (span : Span) (func : Expr) (args : List (Option String × Expr))
  /-- A call whose only argument is a comprehension without parentheses of its own. -/
  | generatorCall (span argument : Span)
  | list (span : Span) (items : List Expr)
  | tuple (span : Span) (items : List Expr)
  /-- Expressions separated by commas, without parentheses. -/
  | sequence (span : Span) (items : List Expr)
  /-- What stands between a pair of parentheses without a comma: an expression, and the line
      continuations around it. -/
  | parens (span : Span) (item : Expr) (items : List Expr)
  /-- Entries of a dictionary. What has no value is no pair of key and value. -/
  | dict (span : Span) (entries : List (Expr × Option Expr))
  /-- `value as alias` -/
  | aliased (span : Span) (value : Expr) (asName : String)
  /-- `*argument` -/
  | splat (span : Span) (argument : Expr)
  /-- A line continuation among the parts of a construct. -/
  | continuation (span : Span) (text : String)
  /-- A construct without counterpart among syntax trees, by its name. -/
  | other (span : Span) (construct : String)

namespace Expr

/-- Where the expression starts. -/
def span : Expr → Span
  | ident s _ | integer s _ | float s _ | string s _ | strings s _ | truth s _ | nothing s
  | unary s _ _ | negation s _ | binary s _ _ _ | boolean s _ _ _ | comparison s _ _ _
  | conditional s _ _ _ _ | lambda s _ _ | attr s _ _ | subscript s _ _ _ | slice s _ | call s _ _
  | generatorCall s _ | list s _ | tuple s _ | sequence s _ | parens s _ _ | dict s _
  | aliased s _ _ | splat s _ | continuation s _ | other s _ => s

/-- The name of the construct. -/
def construct : Expr → String
  | ident .. => "identifier"
  | integer .. => "integer"
  | float .. => "float"
  | string .. => "string"
  | strings .. => "concatenated_string"
  | truth _ value => if value then "true" else "false"
  | nothing .. => "none"
  | unary .. => "unary_operator"
  | negation .. => "not_operator"
  | binary .. => "binary_operator"
  | boolean .. => "boolean_operator"
  | comparison .. => "comparison_operator"
  | conditional .. => "conditional_expression"
  | lambda .. => "lambda"
  | attr .. => "attribute"
  | subscript .. => "subscript"
  | slice .. => "slice"
  | call .. => "call"
  | generatorCall .. => "call"
  | list .. => "list"
  | tuple .. => "tuple"
  | sequence .. => "expression_list"
  | parens .. => "parenthesized_expression"
  | dict .. => "dictionary"
  | aliased .. => "as_pattern"
  | splat .. => "list_splat"
  | continuation .. => "line_continuation"
  | other _ construct => construct

/-- Whether an expression names a place in memory: a variable, an attribute or an element. -/
def isPlace : Expr → Bool
  | ident .. | attr .. | subscript .. => true
  | _ => false

mutual

/-- Whether an expression can be assigned to. -/
def isPattern : Expr → Bool
  | ident .. => true
  | attr .. => true
  | subscript .. => true
  | continuation .. => true
  | splat _ argument => argument.isPlace
  | list _ items => arePatterns items
  | tuple _ items => arePatterns items
  | sequence _ items => arePatterns items
  | parens _ item items => isPattern item && arePatterns items
  | _ => false

/-- Whether all expressions of a list can be assigned to. -/
def arePatterns : List Expr → Bool
  | [] => true
  | e :: rest => isPattern e && arePatterns rest

end

/-- Whether the expression can be read as one about a place if a star precedes it: whether its
    first operand is a place. -/
def leadsWithPlace : Expr → Bool
  | binary _ left _ _ => left.leadsWithPlace
  | boolean _ left _ _ => left.leadsWithPlace
  | comparison _ left _ _ => left.leadsWithPlace
  | conditional _ _ body _ _ => body.leadsWithPlace
  | aliased _ value _ => value.leadsWithPlace
  | call _ func _ => func.leadsWithPlace
  | generatorCall .. => true
  | e => e.isPlace

/-- Whether the expression can be the body of a comprehension, or a key: a starred expression only
    if the star belongs to its first operand. -/
def isBody : Expr → Bool
  | splat _ argument => argument.leadsWithPlace
  | other _ construct => construct != "yield" && construct != "dictionary_splat"
  | _ => true

/-- An operand with a star before it. The star belongs to the first place in it: what is called
    after that place is called with the star. -/
def splatted? (span : Span) : Expr → Option Expr
  | call _ func args => (func.splatted? span).map fun func => call span func args
  | generatorCall _ argument => some (generatorCall span argument)
  | e => if e.isPlace then some (splat span e) else none

end Expr

/-- What an `except` clause lists before its suite: expressions, and line continuations wherever
    they stand, each with its text. -/
structure Caught where
  expr : Expr
  text : String

mutual

/-- A statement. -/
inductive Stmt where
  | expression (span : Span) (value : Expr)
  /-- An assignment; without a value it only declares a type. -/
  | assign (span : Span) (target : Expr) (value : Option Expr)
  | augAssign (span : Span) (target : Expr) (op : Operator) (value : Expr)
  | functionDef (span : Span) (name : String) (params : List Param) (body : List Stmt)
  /-- A class with its bases and the place of their list. -/
  | classDef (span : Span) (name : String) (bases : Option (Span × List (Option String × Expr)))
      (body : List Stmt)
  /-- A conditional statement with its further branches, of which only the last can lack a
      condition. -/
  | ifStmt (span : Span) (test : Expr) (body : List Stmt) (branches : List Branch)
  /-- A loop, and the place of its `else` clause. -/
  | whileLoop (span : Span) (test : Expr) (body : List Stmt) (orelse : Option Span)
  | forLoop (span : Span) (target iter : Expr) (body : List Stmt) (orelse : Option Span)
  | tryStmt (span : Span) (body : List Stmt) (clauses : List Clause)
  /-- A `with` statement with at least one item. -/
  | withStmt (span : Span) (item : Expr) (items : List Expr) (body : List Stmt)
  /-- What stands first after the word `return`. -/
  | returnStmt (span : Span) (value : Option Expr)
  /-- What stands first after the word `raise`, and whether a cause is given. -/
  | raiseStmt (span : Span) (exception : Option Expr) (caused : Bool)
  /-- An import of at least one name. -/
  | importStmt (span : Span) (source : Option String) (name : ImportedName)
      (names : List ImportedName)
  | passStmt (span : Span)
  | breakStmt (span : Span)
  | continueStmt (span : Span)
  /-- A statement without counterpart among syntax trees, or a line continuation between
      statements, by the name of its construct. -/
  | other (span : Span) (construct : String)

/-- A branch of a conditional statement after the first. -/
inductive Branch where
  | elifBranch (span : Span) (test : Expr) (body : List Stmt)
  | elseBranch (body : List Stmt)

/-- A clause of a `try` statement after the first suite. -/
inductive Clause where
  | except (span : Span) (caught : List Caught) (body : List Stmt)
  | finally (body : List Stmt)
  /-- Anything else, by the name of its construct. -/
  | other (span : Span) (construct : String)

end

end Rendition.Source
