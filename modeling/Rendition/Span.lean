/-!
# Positions in a source text

A `Span` is the place where a construct starts: a line, counted from one, and a column, counted
in bytes of the UTF-8 text of that line from zero.

## Main definitions

* `Span`: A line and a column.
* `Span.text`: The written form `line:column`.
* `Span.below`: The same place after a number of lines were put in front of the text.
-/

namespace Rendition

/-- The place where a construct starts. -/
structure Span where
  /-- The line, counted from one. -/
  line : Nat
  /-- The byte offset within the line. -/
  column : Nat
  deriving DecidableEq, Inhabited

namespace Span

/-- The written form `line:column`. -/
def text (s : Span) : String :=
  toString s.line ++ ":" ++ toString s.column

/-- The place as it is after `n` lines were put in front of the text. -/
def below (n : Nat) (s : Span) : Span :=
  { s with line := s.line + n }

/-- Reading order: an earlier line, or the same line and no later column. -/
protected def le (a b : Span) : Prop :=
  a.line < b.line ∨ a.line = b.line ∧ a.column ≤ b.column

instance : LE Span := ⟨Span.le⟩

/-- Strict reading order. -/
protected def lt (a b : Span) : Prop :=
  a.line < b.line ∨ a.line = b.line ∧ a.column < b.column

instance : LT Span := ⟨Span.lt⟩

instance (a b : Span) : Decidable (a ≤ b) :=
  inferInstanceAs (Decidable (_ ∨ _))

instance (a b : Span) : Decidable (a < b) :=
  inferInstanceAs (Decidable (_ ∨ _))

end Span

end Rendition
