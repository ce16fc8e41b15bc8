import Rendition.Config
import Rendition.Decimal.Read
import Rendition.Decimal.Shortest
import Rendition.Decimal.Style
import Rendition.Failure
import Rendition.Json.Basic
import Rendition.Json.Parser
import Rendition.Json.Printer
import Rendition.Literal
import Rendition.Operator
import Rendition.Proofs.Decimal.Interval
import Rendition.Proofs.Decimal.Shortest
import Rendition.Proofs.Decimal.Written
import Rendition.Proofs.Grammar.Bracket
import Rendition.Proofs.Grammar.Compound
import Rendition.Proofs.Grammar.Course
import Rendition.Proofs.Grammar.Enclosure
import Rendition.Proofs.Grammar.Expression
import Rendition.Proofs.Grammar.Finds
import Rendition.Proofs.Grammar.Grown
import Rendition.Proofs.Grammar.Items
import Rendition.Proofs.Grammar.Levels
import Rendition.Proofs.Grammar.Ordered
import Rendition.Proofs.Grammar.Pattern
import Rendition.Proofs.Grammar.ProperExprs
import Rendition.Proofs.Grammar.ProperStmts
import Rendition.Proofs.Grammar.Run
import Rendition.Proofs.Grammar.Sentences
import Rendition.Proofs.Grammar.Sequence
import Rendition.Proofs.Grammar.Simple
import Rendition.Proofs.Grammar.Suites
import Rendition.Proofs.Grammar.Taken
import Rendition.Proofs.Json.Finite
import Rendition.Proofs.Physl.Annotation
import Rendition.Proofs.Physl.Assigned
import Rendition.Proofs.Physl.Assignment
import Rendition.Proofs.Physl.Draft
import Rendition.Proofs.Physl.Follow
import Rendition.Proofs.Physl.Grammar
import Rendition.Proofs.Physl.Lockstep
import Rendition.Proofs.Physl.Mirror
import Rendition.Proofs.Physl.Parts
import Rendition.Proofs.Physl.Place
import Rendition.Proofs.Physl.Renaming
import Rendition.Proofs.Physl.Reuse
import Rendition.Proofs.Physl.Scopes
import Rendition.Proofs.Physl.Script
import Rendition.Proofs.Physl.Sites
import Rendition.Proofs.Physl.Spans
import Rendition.Proofs.Physl.Support
import Rendition.Proofs.Physl.Term
import Rendition.Proofs.Physl.Tokens
import Rendition.Proofs.Python.Aliases
import Rendition.Proofs.Python.Blocks
import Rendition.Proofs.Python.Branches
import Rendition.Proofs.Python.Chains
import Rendition.Proofs.Python.Clauses
import Rendition.Proofs.Python.Collections
import Rendition.Proofs.Python.Dotted
import Rendition.Proofs.Python.Entries
import Rendition.Proofs.Python.Faithful
import Rendition.Proofs.Python.Front
import Rendition.Proofs.Python.Handlers
import Rendition.Proofs.Python.Headed
import Rendition.Proofs.Python.Heads
import Rendition.Proofs.Python.Imports
import Rendition.Proofs.Python.Indices
import Rendition.Proofs.Python.Items
import Rendition.Proofs.Python.Layout
import Rendition.Proofs.Python.Level
import Rendition.Proofs.Python.Lines
import Rendition.Proofs.Python.Margin
import Rendition.Proofs.Python.Openings
import Rendition.Proofs.Python.Operands
import Rendition.Proofs.Python.Page
import Rendition.Proofs.Python.Parenthesized
import Rendition.Proofs.Python.Phrase
import Rendition.Proofs.Python.Rendered
import Rendition.Proofs.Python.Restored
import Rendition.Proofs.Python.RoundTrip
import Rendition.Proofs.Python.Rows
import Rendition.Proofs.Python.Sentences
import Rendition.Proofs.Python.Spelling
import Rendition.Proofs.Python.Statements
import Rendition.Proofs.Python.Textual
import Rendition.Proofs.Python.Wording
import Rendition.Proofs.Readable.Brackets
import Rendition.Proofs.Readable.Figure
import Rendition.Proofs.Readable.Kinds
import Rendition.Proofs.Readable.Legible
import Rendition.Proofs.Readable.Parts
import Rendition.Proofs.Readable.Unambiguous
import Rendition.Proofs.Registry.History
import Rendition.Proofs.Rendering.Coverage
import Rendition.Proofs.Rendering.Definitions
import Rendition.Proofs.Rendering.Display
import Rendition.Proofs.Rendering.Observed
import Rendition.Proofs.Rendering.Places
import Rendition.Proofs.Rendering.Quiet
import Rendition.Proofs.Rendering.Reached
import Rendition.Proofs.Rendering.Related
import Rendition.Proofs.Rendering.Trail
import Rendition.Proofs.Sexpr.Traversal
import Rendition.Proofs.Sexpr.Unambiguous
import Rendition.Proofs.Sexpr.Value
import Rendition.Proofs.Source.Below
import Rendition.Proofs.Source.Counterpart
import Rendition.Proofs.Source.Covered
import Rendition.Proofs.Source.Cut
import Rendition.Proofs.Source.Denoted
import Rendition.Proofs.Source.Enclosed
import Rendition.Proofs.Source.Excerpt
import Rendition.Proofs.Source.Integer
import Rendition.Proofs.Source.Lexeme
import Rendition.Proofs.Source.Moved
import Rendition.Proofs.Source.Naming
import Rendition.Proofs.Source.Numeral
import Rendition.Proofs.Source.Parts
import Rendition.Proofs.Source.Placed
import Rendition.Proofs.Source.Proper
import Rendition.Proofs.Source.Quoted
import Rendition.Proofs.Source.Reads
import Rendition.Proofs.Source.WellFormed
import Rendition.Proofs.Source.Words
import Rendition.Proofs.Text.Lines
import Rendition.Proofs.Tree.Decoded
import Rendition.Proofs.Tree.Fields
import Rendition.Proofs.Tree.Grammatical
import Rendition.Proofs.Tree.Likeness
import Rendition.Proofs.Tree.Orderly
import Rendition.Proofs.Tree.Position
import Rendition.Proofs.Tree.Preorder
import Rendition.Proofs.Tree.Replaced
import Rendition.Proofs.Tree.Replacement
import Rendition.Proofs.Tree.Suites
import Rendition.Proofs.Tree.Traversal
import Rendition.Registry
import Rendition.Rendering.Outline
import Rendition.Rendering.Physl
import Rendition.Rendering.Python
import Rendition.Rendering.Rule
import Rendition.Rendering.Scope
import Rendition.Rendering.Session
import Rendition.Rendering.Sexpr
import Rendition.Source.Concrete
import Rendition.Source.Constant
import Rendition.Source.Cursor
import Rendition.Source.Delimiter
import Rendition.Source.Error
import Rendition.Source.Gap
import Rendition.Source.Grammar.Annotation
import Rendition.Source.Grammar.Bracket
import Rendition.Source.Grammar.Compound
import Rendition.Source.Grammar.Expression
import Rendition.Source.Grammar.Literal
import Rendition.Source.Grammar.Operator
import Rendition.Source.Grammar.Parameter
import Rendition.Source.Grammar.Pattern
import Rendition.Source.Grammar.Sequence
import Rendition.Source.Grammar.Simple
import Rendition.Source.Grammar.Words
import Rendition.Source.Lexer
import Rendition.Source.Number
import Rendition.Source.Parser
import Rendition.Source.Read
import Rendition.Source.Reading
import Rendition.Source.Token
import Rendition.Span
import Rendition.Task
import Rendition.Text.Blank
import Rendition.Text.Identifier
import Rendition.Text.Lines
import Rendition.Text.Quoted
import Rendition.Toml.Config
import Rendition.Toml.Parser
import Rendition.Toml.Scalar
import Rendition.Toml.Table
import Rendition.Tree.Basic
import Rendition.Tree.Equality
import Rendition.Tree.Node
import Rendition.Tree.Serial
import Rendition.Tree.Traversal
import Rendition.Word
