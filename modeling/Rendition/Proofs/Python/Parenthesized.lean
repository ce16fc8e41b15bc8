import Rendition.Proofs.Python.Collections
import Rendition.Proofs.Python.Indices

/-!
# Operators are read back

Every operator is rendered with its operands between parentheses, and every operand is read back
wherever it stands. So what an operator is applied to is found from the tokens alone, and levels
play no role.

## Main definitions

* `Python.Between`: Lexemes that are read as an expression between parentheses.

## Theorems

* `recovered_enclosed`: What is read between parentheses is read back with its trailers.
* `between_binOp`, `between_unaryOp`: What stands between the parentheses of an operator.
-/

namespace Rendition.Python

open Source Source.Lexeme

/-- Whether what stands between parentheses can start with a token. -/
def startsBetween (t : Token) : Bool :=
  !(t.isMark ")" || t.isMark "*" || t.isMark "**" || t.isWord "yield" || t.kind = .lineEnd)

/-- Lexemes that are read as an expression between parentheses. -/
structure Between (inner : List Lexeme) (t : Tree) : Prop where
  starts : ∃ kind text rest, inner = ⟨{}, kind, text⟩ :: rest ∧
    startsBetween (.bare kind text) = true
  read : ∀ (n : Nat) (f : Frame) (s s' : Span) (ts : List Token), inner.length < n →
    ∃ e, Denotes e t ∧ expressionAt n f Level.any (lay s inner ++ (mark ")" {}).token s' :: ts) =
      some (e, (mark ")" {}).token s' :: ts)

/-- What stands between parentheses ends before the closing one. -/
theorem stops_close (level : Nat) (s : Span) : ((mark ")" {}).token s).stops level = true := by
  have hany : (Token.bare .mark ")").stops Level.any = true := by decide
  exact Token.stops_of_any hany level

/-- What is read between parentheses is read back with its trailers. -/
theorem recovered_enclosed {span : Span} {node : Node Tree} {inner : List Lexeme}
    (hphrase : phrase (.mk span node) = enclosed inner) (h : Between inner (.mk span node))
    (htarget : (Tree.mk span node).isTarget = false) : Recovered (.mk span node) := by
  refine recovered_bracket hphrase (by decide) fun n f s g ts us hn hsees => ?_
  obtain ⟨kind, text, rest, hinner, hstarts⟩ := h.starts
  simp only [startsBetween, Bool.not_eq_true', Bool.or_eq_false_iff, decide_eq_false_iff_not]
    at hstarts
  obtain ⟨⟨⟨⟨hclose, hstar⟩, hstars⟩, hyield⟩, hkind⟩ := hstarts
  have hsize : inner.length < n := by
    rw [List.length_append] at hn
    omega
  rw [lay, List.cons_append, atom_bracket rfl]
  change ∃ e, _ ∧ parenthesized (expressionAt n) f _ = _
  simp only [lay_append, List.append_assoc, lay, List.cons_append, List.nil_append]
  generalize s.after (mark "(" g).chars = s₁
  obtain ⟨e, he, hparse⟩ := h.read n f.inside s₁ (s₁.after (spell inner)) ts hsize
  rw [hinner] at hparse ⊢
  rw [lay, List.cons_append] at hparse ⊢
  have helement :=
    (element_plain (t := (Lexeme.mk {} kind text).token s₁) hyield hstar hstars).trans hparse
  exact ⟨_, restores_parens span he htarget,
    parenthesized_single rfl hclose (.flat Gap.flat_empty hkind) helement rfl rfl hsees⟩

/-! ## Operands without brackets around them -/

section Levels

variable {t : Tree} {n : Nat}

/-- In front of a token that no operand goes on with, an operand is arithmetic of any level. -/
theorem Stable.yields_operand (h : Stable t) (hn : size t ≤ n) (f : Frame) (level : Nat) :
    Yields f Token.endsOperand (operand (expressionAt n) f level) (phrase t)
      fun e => Restores e t := by
  intro s g ts us u hsees hu
  obtain ⟨hoperand, -, -, hbinary⟩ := Token.endsOperand_iff.mp hu
  obtain ⟨hstring, hformat⟩ := kind_endsOperand hoperand
  obtain ⟨e, he, hsigned⟩ := h.recovered n f s g ts us u hn hsees hstring hformat fun _ => hoperand
  exact ⟨e, he, operand_alone (hsigned _ (extend_done (trailer_ends hu))) hbinary⟩

/-- Whether a token goes on with an operand neither directly nor as a comparison. -/
def endsClause (t : Token) : Bool :=
  t.endsOperand && !t.compares

theorem Stable.yields_clause (h : Stable t) (hn : size t ≤ n) (f : Frame) (level : Nat) :
    Yields f endsClause (Source.clause (expressionAt n) f level) (phrase t)
      fun e => Restores e t := by
  intro s g ts us u hsees hu
  rw [endsClause, Bool.and_eq_true, Bool.not_eq_true'] at hu
  obtain ⟨hends, hcompares⟩ := hu
  obtain ⟨-, -, hwalrus, -⟩ := Token.endsOperand_iff.mp hends
  obtain ⟨e, he, hparse⟩ := h.yields_operand hn f Level.operand s g ts us u hsees hends
  obtain ⟨first, more, heq, hopening, -⟩ := h.starts.exists_cons s g ts
  refine ⟨e, he, ?_⟩
  rw [heq] at hparse ⊢
  exact clause_alone (comparison_alone hparse hcompares)
    (Token.isWord_opening hopening "lambda" (by decide))
    (Token.isWord_opening hopening "not" (by decide)) hwalrus

/-- The first operand between parentheses. -/
theorem Stable.startsBetween (h : Stable t) (more : List Lexeme) :
    ∃ kind text rest, phrase t {} ++ more = ⟨{}, kind, text⟩ :: rest ∧
      startsBetween (.bare kind text) = true := by
  obtain ⟨kind, text, rest, hfirst, hopening⟩ := h.starts
  refine ⟨kind, text, rest ++ more, by rw [hfirst, List.cons_append], ?_⟩
  simp only [Python.startsBetween, Token.isMark_opening hopening ")" (by decide),
    Token.isMark_opening hopening "*" (by decide), Token.isMark_opening hopening "**" (by decide),
    Token.isWord_opening hopening "yield" (by decide), (Token.kind_opening hopening).1,
    decide_false, Bool.or_self, Bool.not_false]

end Levels

/-! ## Operators -/

section Operators

variable (span : Span)

theorem between_binOp {left right : Tree} {op : Operator} (hleft : Stable left)
    (hright : Stable right) (hawait : isAwait left → op ∉ [.add, .sub, .mult]) :
    Between (phrase left {} ++ mark op.symbol .blank :: phrase right .blank)
      (.mk span (.binOp left op right)) := by
  refine ⟨hleft.startsBetween _, fun n f s s' ts hn => ?_⟩
  obtain ⟨n, rfl⟩ := Nat.exists_eq_succ_of_ne_zero (Nat.ne_zero_of_lt hn)
  have hsize : size left ≤ n ∧ size right < n := by
    have hlength := hright.starts.length_eq .blank {}
    simp only [List.length_append, List.length_cons] at hn
    simp only [size]
    omega
  simp only [lay_append, lay, List.append_assoc, List.cons_append]
  generalize s.after (spell (phrase left {})) = s₁
  generalize s₁.after (mark op.symbol .blank).chars = s₂
  have hop : ((mark op.symbol .blank).token s₁).binary? = some op := by
    change (Token.bare .mark op.symbol).binary? = some op
    cases op <;> decide
  have hlevel : Level.operand ≤ op.level := by cases op <;> decide
  have hoperand : isAwait left → ((mark op.symbol .blank).token s₁).startsOperand = false := by
    intro h
    change (Token.bare .mark op.symbol).startsOperand = false
    have hop := hawait h
    revert hop
    cases op <;> decide
  have htrailer : ∀ text ∈ [".", "(", "["], (op.symbol == text) = false := by cases op <;> decide
  obtain ⟨e', he', hparse'⟩ := hright.yields hsize.2 f op.rightLevel s₂ .blank _ ts
    ((mark ")" {}).token s') (sees_mark Gap.flat_empty) (stops_close op.rightLevel s')
  obtain ⟨first', more', heq', hopening', hgap'⟩ :=
    hright.starts.exists_cons s₂ .blank ((mark ")" {}).token s' :: ts)
  have hlength := congrArg List.length heq'
  rw [heq'] at hparse' ⊢
  obtain ⟨e, he, hsigned⟩ := hleft.recovered.marked hsize.1 f s {} op.symbol Gap.flat_blank s₁
    (first' :: more') hoperand
  have hparse := hsigned _ (extend_done (trailer_none (htrailer "." (by decide))
    (htrailer "(" (by decide)) (htrailer "[" (by decide))))
  obtain ⟨first, more, heq, hopening, -⟩ :=
    hleft.starts.exists_cons s {} ((mark op.symbol .blank).token s₁ :: first' :: more')
  rw [heq] at hparse ⊢
  have hless : ts.length < (first' :: more').length := by
    simp only [List.length_append, List.length_cons] at hlength ⊢
    omega
  have hbinary := operand_binary hparse hop hlevel
    (sees_opening hopening' (hgap' ▸ Gap.flat_blank) more') hparse' hless rfl
  exact ⟨_, denotes_binary span he.read he'.read op, expressionAt_comparison
    (comparison_alone hbinary rfl) (Token.isWord_opening hopening "lambda" (by decide))
    (Token.isWord_opening hopening "not" (by decide)) rfl (by decide) rfl⟩

theorem between_unaryOp {operand : Tree} {op : UnaryOperator} (h : Stable operand) :
    Between (if op = .not then word "not" {} :: phrase operand .blank
      else mark op.symbol {} :: phrase operand {}) (.mk span (.unaryOp op operand)) := by
  split
  · next hop =>
    subst hop
    refine ⟨⟨_, _, _, rfl, by decide⟩, fun n f s s' ts hn => ?_⟩
    obtain ⟨n, rfl⟩ := Nat.exists_eq_succ_of_ne_zero (Nat.ne_zero_of_lt hn)
    have hsize : size operand < n := by
      have hlength := h.starts.length_eq .blank {}
      rw [List.length_cons] at hn
      rw [size]
      omega
    rw [lay, List.cons_append]
    generalize s.after (word "not" {}).chars = s₁
    obtain ⟨e, he, hparse⟩ := h.yields hsize f Level.negation s₁ .blank _ ts
      ((mark ")" {}).token s') (sees_mark Gap.flat_empty) (stops_close Level.negation s')
    obtain ⟨first, more, heq, hopening, hgap⟩ :=
      h.starts.exists_cons s₁ .blank ((mark ")" {}).token s' :: ts)
    rw [heq] at hparse ⊢
    have hflat : f.middle.Sees (first :: more) (first :: more) :=
      sees_opening hopening (hgap ▸ Gap.flat_blank) more
    exact ⟨_, denotes_negation span he.read,
      expressionAt_clause (clause_negation (t := (word "not" {}).token s) rfl hflat hparse) rfl⟩
  · next hop =>
    have hfirst : startsBetween (.bare .mark op.symbol) = true := by
      revert hop
      cases op <;> decide
    refine ⟨⟨_, _, _, rfl, hfirst⟩, fun n f s s' ts hn => ?_⟩
    obtain ⟨n, rfl⟩ := Nat.exists_eq_succ_of_ne_zero (Nat.ne_zero_of_lt hn)
    have hsize : size operand < n := by
      rw [List.length_cons] at hn
      rw [size]
      omega
    have hunary : ((mark op.symbol {}).token s).unary? = some op := by
      change (Token.bare .mark op.symbol).unary? = some op
      revert hop
      cases op <;> decide
    rw [lay, List.cons_append]
    generalize s.after (mark op.symbol {}).chars = s₁
    obtain ⟨e, he, hparse⟩ := h.yields hsize f Level.power s₁ {} _ ts
      ((mark ")" {}).token s') (sees_mark Gap.flat_empty) (stops_close Level.power s')
    obtain ⟨first, more, heq, hopening, hgap⟩ :=
      h.starts.exists_cons s₁ {} ((mark ")" {}).token s' :: ts)
    rw [heq] at hparse ⊢
    have hsigned := signed_unary hunary
      (sees_opening hopening (hgap ▸ Gap.flat_empty) more) hparse
    exact ⟨_, denotes_unary span he.read op, expressionAt_alone hsigned rfl rfl (stops_close _ s')⟩

end Operators

end Rendition.Python
