import Rendition.Source.Grammar.Compound
import Rendition.Source.Grammar.Expression
import Rendition.Source.Lexer

/-!
# From text to statements

The tokens of a source text are grouped into statements. Every nested construct starts behind a
token of the construct around it, so the number of tokens bounds the nesting.

## Main definitions

* `parse?`: The statements of a source text, if it follows the grammar.
-/

namespace Rendition.Source

/-- The parsers of expressions and types for sources of up to `size` tokens. -/
def phrases (size : Nat) : Phrases :=
  ⟨expressionAt (size + 1), typeAt (expressionAt (size + 1)) (size + 1)⟩

/-- The statements that a list of tokens makes up. -/
def parseTokens? (ts : List Token) : Option (List Stmt) :=
  let p := phrases ts.length
  ((statements p (suiteAt p (ts.length + 1))).run ts).map Prod.fst

/-- The statements of a source text, if it follows the grammar. -/
def parse? (text : List Char) : Option (List Stmt) :=
  parseTokens? (tokenize text)

end Rendition.Source
