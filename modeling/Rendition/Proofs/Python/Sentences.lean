import Rendition.Proofs.Python.Chains
import Rendition.Proofs.Python.Openings

/-!
# Statements of one line are read back

A line is read as the statement that it was rendered from, whatever the lines below are.

## Main definitions

* `Python.DenotesStmt`: A statement is read as a tree like the given one.
* `Python.ReadsLine`: The phrase of a line is read as a statement.

## Theorems

* `readsLine_exprStmt`, `readsLine_assign`, `readsLine_returnStmt`, …: Lines by kinds.
-/

namespace Rendition.Python

open Source Source.Lexeme

/-- A statement is read as a tree like the given one. -/
def DenotesStmt (s : Stmt) (t : Tree) : Prop :=
  ∃ u, s.read = .ok u ∧ t.alike u = true

/-- The phrase of a line is read as a statement in front of the line below. -/
def ReadsLine (p : Phrase) (t : Tree) : Prop :=
  ∀ (n margin : Nat) (suite : SuiteParser) (s : Span) (g : Gap) (ts : List Token) (v : Token),
    (p {}).length ≤ n → v.gap.breaksLine = true → v.isMark ">>" = false →
    ∃ stmt, DenotesStmt stmt t ∧
      statementLine (phrases n) suite margin (lay s (p g) ++ v :: ts) = some ([stmt], v :: ts)

theorem stops_lineEnd (v : Token) : v.lineEnd.stops Level.any = true := by
  change (Token.bare .lineEnd "").stops Level.any = true
  decide

/-- An expression is read up to the end of its line. -/
theorem yields_line {t : Tree} (h : t.IsExpression Faithful) {n : Nat} (hn : size t ≤ n)
    (margin : Nat) {v : Token} (hbreaks : v.gap.breaksLine = true) (s : Span) (g : Gap)
    (ts : List Token) : ∃ e first more, Restores e t ∧
      lay s (phrase t g) ++ v :: ts = first :: more ∧ first.isOpening = true ∧ first.gap = g ∧
      (phrases n).expr (.statement margin) Level.any (first :: more) =
        some (e, v.lineEnd :: v :: ts) := by
  have hstable := stable_phrase h
  obtain ⟨e, he, hparse⟩ := hstable.yields (Nat.lt_succ_of_le hn) (.statement margin) Level.any s g
    (v :: ts) (v :: ts) v.lineEnd (.ended rfl hbreaks) (stops_lineEnd v)
  obtain ⟨first, more, heq, hopening, hgap⟩ := hstable.starts.exists_cons s g (v :: ts)
  rw [heq] at hparse
  exact ⟨e, first, more, he, heq, hopening, hgap, hparse⟩

section Sentences

variable (span : Span)

/-! ## Expressions and assignments -/

theorem readsLine_exprStmt {value : Tree} (h : value.IsExpression Faithful)
    (hplain : startsPlainly value) (hmatch : value.node ≠ .ident "match") :
    ReadsLine (phrase value) (.mk span (.exprStmt value)) := by
  intro n margin suite s g ts v hn hbreaks harrow
  obtain ⟨kind, text, rest, hstarts⟩ := startsLine_alone h hplain hmatch
  obtain ⟨e, first, more, he, heq, hopening, -, hparse⟩ := yields_line h hn margin hbreaks s g ts
  have hstatement := expressionStatement_alone (Token.isWord_opening hopening "yield" (by decide))
    hparse rfl
  rw [← heq] at hstatement
  obtain ⟨u, hread, halike⟩ := he.read
  refine ⟨_, ⟨.mk first.span (.exprStmt u), ?_, ?_⟩,
    statementLine_expression hstarts hbreaks harrow s g hstatement⟩
  · rw [Stmt.read, hread]
    rfl
  · rw [Tree.alike_mk]
    exact halike

/-- What is assigned is an operand, so it is no assignment itself. -/
theorem denotes_assign {e e' : Expr} {target value : Tree} {place : Span}
    (htarget : DenotesTarget e target) (hvalue : Restores e' value) :
    DenotesStmt (.assign place e (some e')) (.mk span (.assign target value)) := by
  obtain ⟨-, u, hread, halike⟩ := htarget
  obtain ⟨v, hread', halike'⟩ := hvalue.read
  refine ⟨.mk place (.assign u v), ?_, ?_⟩
  · have hoperand := hvalue.operand
    cases e' with
    | other => exact absurd hoperand Bool.false_ne_true
    | _ =>
      simp only [Stmt.read, hread, hread', ok_bind]
      rfl
  · rw [Tree.alike_mk]
    simp only [Node.agree, halike, halike', Bool.and_true]

theorem denotes_augAssign {e e' : Expr} {target value : Tree} {place : Span} (op : Operator)
    (htarget : DenotesTarget e target) (hvalue : Denotes e' value) :
    DenotesStmt (.augAssign place e op e') (.mk span (.augAssign target op value)) := by
  obtain ⟨-, u, hread, halike⟩ := htarget
  obtain ⟨v, hread', halike'⟩ := hvalue
  refine ⟨.mk place (.augAssign u op v), ?_, ?_⟩
  · simp only [Stmt.read, hread, hread', ok_bind]
    rfl
  · rw [Tree.alike_mk]
    simp only [Node.agree, beq_self_eq_true, halike, halike', Bool.and_true]

/-- Both sides of an assignment are read, up to the end of the line. -/
theorem yields_sides {target value : Tree} (htarget : target.IsExpression Faithful)
    (hvalue : value.IsExpression Faithful) {text : String}
    (hstops : (Token.bare .mark text).stops Level.any = true) {n : Nat}
    (hn : (phrase target {} ++ mark text .blank :: phrase value .blank).length ≤ n) (margin : Nat)
    {v : Token} (hbreaks : v.gap.breaksLine = true) (s : Span) (g : Gap) (ts : List Token) :
    ∃ e e' first more s₁ first' more', Restores e target ∧ Restores e' value ∧
      lay s (phrase target g ++ mark text .blank :: phrase value .blank) ++ v :: ts =
        first :: more ∧
      first.isOpening = true ∧ first'.isOpening = true ∧ first'.gap = .blank ∧
      (phrases n).expr (.statement margin) Level.any (first :: more) =
        some (e, (mark text .blank).token s₁ :: first' :: more') ∧
      (phrases n).expr (.statement margin) Level.any (first' :: more') =
        some (e', v.lineEnd :: v :: ts) := by
  have hstable := stable_phrase htarget
  have hsize : size target ≤ n ∧ size value ≤ n := by
    have hlength := (stable_phrase hvalue).starts.length_eq .blank {}
    simp only [List.length_append, List.length_cons] at hn
    simp only [size]
    omega
  simp only [lay_append, lay, List.append_assoc, List.cons_append]
  generalize s.after (spell (phrase target g)) = s₁
  generalize s₁.after (mark text .blank).chars = s₂
  obtain ⟨e', first', more', he', heq', hopening', hgap', hparse'⟩ :=
    yields_line hvalue hsize.2 margin hbreaks s₂ .blank ts
  rw [heq']
  obtain ⟨e, he, hparse⟩ := hstable.yields (Nat.lt_succ_of_le hsize.1) (.statement margin) Level.any
    s g _ (first' :: more') ((mark text .blank).token s₁) (sees_mark Gap.flat_blank) hstops
  obtain ⟨first, more, heq, hopening, -⟩ :=
    hstable.starts.exists_cons s g ((mark text .blank).token s₁ :: first' :: more')
  rw [heq] at hparse
  exact ⟨e, e', first, more, s₁, first', more', he, he', heq, hopening, hopening', hgap', hparse,
    hparse'⟩

theorem readsLine_assign {target value : Tree} (htarget : target.IsExpression Faithful)
    (hleft : target.isTarget = true) (hplain : startsPlainly target)
    (hvalue : value.IsExpression Faithful) :
    ReadsLine (fun g => phrase target g ++ mark "=" .blank :: phrase value .blank)
      (.mk span (.assign target value)) := by
  intro n margin suite s g ts v hn hbreaks harrow
  obtain ⟨kind, text, rest, hstarts⟩ := startsLine_append htarget hplain (l := mark "=" .blank) rfl
    Gap.flat_blank (by decide) (phrase value .blank)
  obtain ⟨e, e', first, more, s₁, first', more', he, he', heq, hopening, hopening', hgap', hparse,
    hparse'⟩ := yields_sides htarget hvalue (by decide) hn margin hbreaks s g ts
  have hstatement := expressionStatement_assign (Token.isWord_opening hopening "yield" (by decide))
    hparse (he.target hleft).1 (sees_opening hopening' (hgap' ▸ Gap.flat_blank) more')
    (Token.isWord_opening hopening' "yield" (by decide)) hparse' rfl rfl
  rw [← heq] at hstatement
  exact ⟨_, denotes_assign span (he.target hleft) he',
    statementLine_expression hstarts hbreaks harrow s g hstatement⟩

theorem readsLine_augAssign {target value : Tree} {op : Operator}
    (htarget : target.IsExpression Faithful) (hleft : target.isTarget = true)
    (hplain : startsPlainly target) (hvalue : value.IsExpression Faithful) :
    ReadsLine (fun g => phrase target g ++ mark (op.symbol ++ "=") .blank :: phrase value .blank)
      (.mk span (.augAssign target op value)) := by
  intro n margin suite s g ts v hn hbreaks harrow
  have hmark : startsNothing (.bare .mark (op.symbol ++ "=")) = true ∧
      (Token.bare .mark (op.symbol ++ "=")).stops Level.any = true := by cases op <;> decide
  obtain ⟨kind, text, rest, hstarts⟩ := startsLine_append htarget hplain
    (l := mark (op.symbol ++ "=") .blank) rfl Gap.flat_blank hmark.1 (phrase value .blank)
  obtain ⟨e, e', first, more, s₁, first', more', he, he', heq, hopening, hopening', hgap', hparse,
    hparse'⟩ := yields_sides htarget hvalue hmark.2 hn margin hbreaks s g ts
  have hstatement := expressionStatement_augAssign
    (Token.isWord_opening hopening "yield" (by decide)) hparse (he.target hleft).1
    (sees_opening hopening' (hgap' ▸ Gap.flat_blank) more')
    (Token.isWord_opening hopening' "yield" (by decide)) hparse' rfl (beq_self_eq_true _)
  rw [← heq] at hstatement
  exact ⟨_, denotes_augAssign span op (he.target hleft) he'.read,
    statementLine_expression hstarts hbreaks harrow s g hstatement⟩

/-! ## Keywords -/

/-- A line that is a keyword alone. -/
theorem readsLine_keyword {text : String} (htext : text ∈ simpleWords) {t : Tree}
    (h : ∀ (p : Phrases) (f : Frame) (c u : Token) (us ts : List Token), c.isWord text = true →
      f.Sees ts (u :: us) → u.kind = .lineEnd →
      ∃ stmt, DenotesStmt stmt t ∧ simple p f (c :: ts) = some (stmt, u :: us)) :
    ReadsLine (fun g => [word text g]) t := by
  intro n margin suite s g ts v hn hbreaks harrow
  obtain ⟨stmt, hstmt, hsimple⟩ := h (phrases n) (.statement margin) ((word text g).token s)
    v.lineEnd (v :: ts) (v :: ts) (beq_self_eq_true text) (.ended rfl hbreaks) rfl
  exact ⟨stmt, hstmt, statementLine_simple (compound?_keyword rfl htext) hsimple⟩

theorem readsLine_passStmt : ReadsLine (fun g => [word "pass" g]) (.mk span .passStmt) :=
  readsLine_keyword (by decide) fun _ _ _ _ _ _ hc hsees _ =>
    ⟨_, ⟨_, rfl, by rw [Tree.alike_mk]; rfl⟩, simple_pass hsees hc⟩

theorem readsLine_breakStmt : ReadsLine (fun g => [word "break" g]) (.mk span .breakStmt) :=
  readsLine_keyword (by decide) fun _ _ _ _ _ _ hc hsees _ =>
    ⟨_, ⟨_, rfl, by rw [Tree.alike_mk]; rfl⟩, simple_break hsees hc⟩

theorem readsLine_continueStmt :
    ReadsLine (fun g => [word "continue" g]) (.mk span .continueStmt) :=
  readsLine_keyword (by decide) fun _ _ _ _ _ _ hc hsees _ =>
    ⟨_, ⟨_, rfl, by rw [Tree.alike_mk]; rfl⟩, simple_continue hsees hc⟩

/-- A keyword that an expression can follow. -/
theorem readsLine_optional {text : String} (htext : text ∈ simpleWords) {value : Option Tree}
    (h : ∀ t ∈ value, t.IsExpression Faithful) {t : Tree} (build : Span → Option Expr → Stmt)
    (hbuild : ∀ place e, DenotesOption e value → DenotesStmt (build place e) t)
    (hnone : ∀ (p : Phrases) (f : Frame) (c u : Token) (us ts : List Token), c.isWord text = true →
      f.Sees ts (u :: us) → u.kind = .lineEnd → u.startsExpression = false →
      simple p f (c :: ts) = some (build c.span none, u :: us))
    (hsome : ∀ (p : Phrases) (f : Frame) (c u v : Token) (us ts rest : List Token) (e : Expr),
      c.isWord text = true → f.Sees ts (u :: us) → u.startsExpression = true →
      u.gap.continuations = [] → p.expr f Level.any (u :: us) = some (e, v :: rest) →
      v.kind = .lineEnd → simple p f (c :: ts) = some (build c.span (some e), v :: rest)) :
    ReadsLine (fun g => word text g :: optionalPhrase value .blank) t := by
  rcases value with _ | value
  · refine readsLine_keyword htext fun p f c u us ts hc hsees hu => ?_
    have hexpression : u.startsExpression = false := by
      simp only [Token.startsExpression, Token.startsOperand, Token.isWord, hu, reduceCtorEq,
        decide_false, Bool.false_and, Bool.or_self]
    exact ⟨_, hbuild _ none denotesOption_none, hnone p f c u us ts hc hsees hu hexpression⟩
  · intro n margin suite s g ts v hn hbreaks harrow
    have hvalue := h value rfl
    have hsize : size value ≤ n := by
      have hlength := (stable_phrase hvalue).starts.length_eq .blank {}
      change (phrase value .blank).length + 1 ≤ n at hn
      rw [size]
      omega
    obtain ⟨e, first, more, he, heq, hopening, hgap, hparse⟩ :=
      yields_line hvalue hsize margin hbreaks (s.after (word text g).chars) .blank ts
    have hlay : lay s (word text g :: optionalPhrase (some value) .blank) ++ v :: ts =
        (word text g).token s :: first :: more := by
      rw [← heq]
      rfl
    have hflat : first.gap.Flat := hgap ▸ Gap.flat_blank
    rw [hlay]
    exact ⟨_, hbuild _ (some e) (denotesOption_some he.read),
      statementLine_simple (compound?_keyword rfl htext) (hsome _ _ _ _ _ _ _ _ _
        (beq_self_eq_true text) (sees_opening hopening hflat more)
        (Token.startsExpression_opening hopening) hflat.continuations hparse rfl)⟩

theorem readsLine_returnStmt {value : Option Tree} (h : ∀ t ∈ value, t.IsExpression Faithful) :
    ReadsLine (fun g => word "return" g :: optionalPhrase value .blank)
      (.mk span (.returnStmt value)) := by
  refine readsLine_optional (by decide) h .returnStmt (fun place e he => ?_)
    (fun p f c u us ts hc hsees _ hu => simple_return_none hsees hc hu)
    fun p f c u v us ts rest e hc hsees hu hgap hparse hv =>
      simple_return_some hsees hu hgap hparse (Token.isMark_lineEnd hv ",") hc
  obtain ⟨u, hread, hagree⟩ := he
  refine ⟨.mk place (.returnStmt u), ?_, ?_⟩
  · rw [Stmt.read, hread]
    rfl
  · rw [Tree.alike_mk]
    exact hagree

theorem readsLine_raiseStmt {exception : Option Tree}
    (h : ∀ t ∈ exception, t.IsExpression Faithful) :
    ReadsLine (fun g => word "raise" g :: optionalPhrase exception .blank)
      (.mk span (.raiseStmt exception)) := by
  refine readsLine_optional (by decide) h (fun place e => .raiseStmt place e false)
    (fun place e he => ?_)
    (fun p f c u us ts hc hsees hend hu =>
      simple_raise_none hsees hc hu (Token.isWord_lineEnd hend _))
    fun p f c u v us ts rest e hc hsees hu hgap hparse hv =>
      simple_raise_some hsees hu hgap hparse (Token.isMark_lineEnd hv ",") hc
        (Token.isWord_lineEnd hv _)
  obtain ⟨u, hread, hagree⟩ := he
  refine ⟨.mk place (.raiseStmt u), ?_, ?_⟩
  · rw [Stmt.read, hread]
    rfl
  · rw [Tree.alike_mk]
    exact hagree

end Sentences

end Rendition.Python
