import Rendition.Proofs.Grammar.Levels
import Rendition.Source.Parser

/-!
# Statements of one line

A line starts with a keyword, or with an expression. The first token mostly tells which statement
it is; where a word can be a name as well, the token behind it decides.

## Theorems

* `expressionAt_none`: No expression starts with a token that starts none.
* `expressionStatement_assign`, `expressionStatement_augAssign`: The assignments.
* `simple_plain`: A statement that starts with an expression.
* `simpleLine_of`: The only statement of a line.
-/

namespace Rendition.Source

section Sentences

variable {expr : ExprParser} {p : Phrases} {suite : SuiteParser} {f : Frame} {margin : Nat}
  {t u v c : Token} {ts us vs mid rest : List Token} {e e' : Expr} {stmt : Stmt}

/-! ## What starts no expression -/

theorem atom_none (ht : t.startsOperand = false) : atom expr f (t :: ts) = none := by
  have hmark := Token.isMark_of_startsOperand ht
  have hword := Token.isWord_of_startsOperand ht
  cases hkind : t.kind with
  | word =>
    have htext (text : String) (h : (Token.bare .word text).startsOperand = true) :
        (t.text == text) = false := by
      simpa only [Token.isWord, hkind, decide_true, Bool.true_and] using hword text h
    have hvariable : isVariable t.text = false := by
      rw [Token.startsOperand, hkind] at ht
      exact (Bool.or_eq_false_iff.mp ht).1
    simp only [atom, run_bind, run_peek, Option.bind_some, hkind, htext "True" (by decide),
      htext "False" (by decide), htext "None" (by decide), Bool.or_self, Bool.false_eq_true,
      if_false, hvariable, require, run_failure, Option.bind_none]
  | mark =>
    have htext (text : String) (h : (Token.bare .mark text).startsOperand = true) :
        (t.text == text) = false := by
      simpa only [Token.isMark, hkind, decide_true, Bool.true_and] using hmark text h
    simp only [atom, run_bind, run_peek, Option.bind_some, hkind, htext "(" (by decide),
      htext "[" (by decide), htext "\x7b" (by decide), htext "..." (by decide), Bool.false_eq_true,
      if_false, run_failure]
  | integer | float | string | formatOpen =>
    rw [Token.startsOperand, hkind] at ht
    cases ht
  | _ =>
    simp only [atom, run_bind, run_peek, Option.bind_some, hkind, run_failure]

theorem signed_none (ht : t.startsOperand = false) (hunary : t.unary? = none) :
    signed expr f (t :: ts) = none := by
  simp only [signed, run_bind, run_peek, Option.bind_some, hunary, run_ite,
    Token.isMark_of_startsOperand ht "*" (by decide),
    Token.isWord_of_startsOperand ht "await" (by decide), Bool.false_eq_true, if_false,
    atom_none ht, Option.bind_none]

/-- No expression starts with a token that starts none. -/
theorem expressionAt_none (ht : t.startsExpression = false) (hunary : t.unary? = none)
    (n level : Nat) : expressionAt n f level (t :: ts) = none := by
  simp only [Token.startsExpression, Bool.or_eq_false_iff] at ht
  obtain ⟨⟨hoperand, hnot⟩, hlambda⟩ := ht
  rcases n with _ | n
  · rfl
  · have hoperand : operand (expressionAt n) f level (t :: ts) = none ∧
        operand (expressionAt n) f Level.operand (t :: ts) = none := by
      simp only [operand, run_bind, signed_none hoperand hunary, Option.bind_none, and_self]
    by_cases hlevel : level ≤ Level.comparison
    · rw [expressionAt_loose n hlevel]
      simp only [loose, clause, comparison, run_bind, run_peek, Option.bind_some, run_ite, hlambda,
        hnot, Bool.false_eq_true, if_false, hoperand.2, Option.bind_none]
    · rw [expressionAt]
      simp only [hlevel, if_false, hoperand.1]

/-! ## Assignments -/

theorem sequence_alone (h : p.expr f Level.any (t :: ts) = some (e, u :: rest))
    (hu : u.isMark "," = false) : sequence p.expr f (t :: ts) = some (e, u :: rest) :=
  sequenceOf_alone h hu

/-- Nothing is assigned where a line ends. -/
theorem assignment?_none {value : Parser Expr} (hu : u.kind = .lineEnd) :
    assignment? p f value e (u :: rest) = some (none, u :: rest) := by
  have hmark := Token.isMark_lineEnd hu
  have haugmented : u.augmented? = none := by
    rw [Token.augmented?, hu]
    rfl
  simp only [assignment?, run_bind, run_peek, Option.bind_some, run_ite, hmark, Bool.false_eq_true,
    if_false, haugmented, run_pure]

/-- What is assigned, up to the end of the line. -/
theorem assigned_alone (hyield : t.isWord "yield" = false)
    (h : p.expr f Level.any (t :: ts) = some (e, u :: rest)) (hu : u.kind = .lineEnd) :
    assigned p f (t :: ts) = some (e, u :: rest) := by
  have hcomma := Token.isMark_lineEnd hu ","
  simp only [assigned, assignedAt, run_bind, run_atWord, Option.bind_some, hyield,
    Bool.false_eq_true, if_false, sequence_alone h hcomma, assignment?_none hu, run_pure]

section Statement

variable (hyield : t.isWord "yield" = false)
  (htarget : p.expr f Level.any (t :: ts) = some (e, c :: mid))

include hyield htarget

/-- An expression is a statement of its own if its line ends behind it. -/
theorem expressionStatement_alone (hc : c.kind = .lineEnd) :
    expressionStatement p f (t :: ts) = some (.expression t.span e, c :: mid) := by
  have hcomma := Token.isMark_lineEnd hc ","
  simp only [expressionStatement, run_bind, run_peek, Option.bind_some, run_atWord, hyield,
    Bool.false_eq_true, if_false, sequence_alone htarget hcomma, assignment?_none hc, run_pure]

variable (hpattern : e.isPattern = true) (hsees : f.middle.Sees mid (v :: vs))
  (hyield' : v.isWord "yield" = false)
  (hvalue : p.expr f Level.any (v :: vs) = some (e', u :: us)) (hu : u.kind = .lineEnd)

include hpattern hsees hyield' hvalue hu

theorem expressionStatement_assign (hc : c.isMark "=" = true) :
    expressionStatement p f (t :: ts) = some (.assign t.span e (some e'), u :: us) := by
  have hcomma := Token.isMark_of_isMark hc "," (by decide)
  simp only [expressionStatement, run_bind, run_peek, Option.bind_some, run_atWord, hyield,
    Bool.false_eq_true, if_false, sequence_alone htarget hcomma, assignment?, run_ite, hc, if_true,
    hpattern, run_require, run_discard, hsees.shiftOperator, assigned_alone hyield' hvalue hu,
    run_pure]

theorem expressionStatement_augAssign {op : Operator} (hc : c.isMark (op.symbol ++ "=") = true) :
    expressionStatement p f (t :: ts) = some (.augAssign t.span e op e', u :: us) := by
  have hne : ∀ text ∈ [",", "=", ":"], (op.symbol ++ "=" == text) = false := by cases op <;> decide
  have hmark := fun text htext => Token.isMark_of_isMark hc text (hne text htext)
  have hop : c.augmented? = some op := by
    rw [Token.eq_of_isMark Token.augmented? (fun _ => rfl) hc]
    cases op <;> decide
  simp only [expressionStatement, run_bind, run_peek, Option.bind_some, run_atWord, hyield,
    Bool.false_eq_true, if_false, sequence_alone htarget (hmark "," (by decide)), assignment?,
    run_ite, hmark "=" (by decide), hmark ":" (by decide), hop, hpattern, run_require, run_discard,
    hsees.shiftOperator, assigned_alone hyield' hvalue hu, run_pure]

end Statement

/-! ## What a line starts with -/

/-- The words that start a simple statement of their own. -/
def simpleWords : List String :=
  ["pass", "break", "continue", "return", "raise", "del", "assert", "global", "nonlocal", "import",
    "from"]

/-- The words that start a compound statement of their own. -/
def compoundWords : List String :=
  ["def", "class", "if", "while", "for", "try", "with"]

/-- No keyword starts an expression. -/
theorem text_opening (ht : t.isOpening = true) (hkind : t.kind = .word) {text : String}
    (htext : (Token.bare .word text).isOpening = false) : t.text ≠ text := by
  rintro rfl
  rw [Token.isOpening, hkind] at ht
  exact Bool.eq_false_iff.mp htext ht

theorem keywordStatement?_none (h : t.kind = .word → t.text ∉ simpleWords) :
    keywordStatement? p f t = none := by
  rw [keywordStatement?]
  refine ite_eq_left_iff.mpr fun hkind => ?_
  have hword := h (Decidable.not_not.mp hkind)
  split
  all_goals first
    | rfl
    | next heq => exact absurd (by rw [heq]; decide) hword

theorem keywordStatement?_opening (ht : t.isOpening = true) : keywordStatement? p f t = none := by
  refine keywordStatement?_none fun hkind hmem => ?_
  have hall : ∀ text ∈ simpleWords, (Token.bare .word text).isOpening = false := by decide
  exact text_opening ht hkind (hall t.text hmem) rfl

/-- A statement that starts with an expression: where it starts with the word `print` no arrow may
    follow, and where it starts with the word `type` no type. -/
theorem simple_plain (ht : t.isOpening = true)
    (h : expressionStatement p f (t :: ts) = some (stmt, u :: us)) (hu : u.kind = .lineEnd)
    (hprint : t.isWord "print" = true → second (·.isMark ">>") (t :: ts) = some (false, t :: ts))
    (htype : t.isWord "type" = true → typeAlias p f t.span (t :: ts) = none) :
    simple p f (t :: ts) = some (stmt, u :: us) := by
  have hended : Source.ended (expressionStatement p f) (t :: ts) = some (stmt, u :: us) := by
    simp only [Source.ended, run_bind, h, Option.bind_some, atStatementEnd, run_atKind, hu,
      decide_true, run_atMark, Bool.true_or, run_pure, run_require]
  simp only [simple, run_bind, run_peek, Option.bind_some, keywordStatement?_opening ht, run_ite]
  split
  · next hword =>
    simp only [hprint hword, Option.bind_some, Bool.false_eq_true, if_false, run_orElse, hended,
      Option.orElse_some]
  · split
    · simp only [run_orElse, hended, Option.orElse_some]
    · split
      · next hword =>
        simp only [run_orElse, Source.ended, run_bind, htype hword, Option.bind_none,
          Option.orElse_none, h]
      · exact h

/-- Where no type starts behind the word `type`, no type is given a name. -/
theorem typeAlias_none (hsees : f.Sees ts (u :: us)) (hu : u.startsExpression = false)
    (hunary : u.unary? = none) (hstars : u.isMark "**" = false) (n : Nat) (span : Span) :
    typeAlias (phrases n) f span (t :: ts) = none := by
  have hidentifier : u.isIdentifier = false := by
    refine Bool.eq_false_iff.mpr fun h => ?_
    rw [Token.isIdentifier, Bool.and_eq_true, decide_eq_true_eq] at h
    have hoperand : u.startsOperand = true := by
      rw [Token.startsOperand, h.1]
      simp only [isVariable, h.2, Bool.true_or]
    rw [Token.startsExpression, hoperand] at hu
    cases hu
  have hexpr : expressionAt (n + 1) f.middle Level.any (u :: us) = none :=
    expressionAt_none hu hunary (n + 1) Level.any
  obtain ⟨b, hsecond⟩ : ∃ b, second (·.isMark "[") (u :: us) = some (b, u :: us) := by
    cases us <;> exact ⟨_, rfl⟩
  have htype : typeAt (expressionAt (n + 1)) (n + 1) f.middle true (u :: us) = none := by
    simp only [typeAt, run_bind, run_peek, Option.bind_some, run_ite, hstars, Bool.false_eq_true,
      if_false, hidentifier, Bool.false_and, run_discard, hsecond, hexpr, Option.bind_none]
  simp only [typeAlias, run_bind, run_discard, hsees.shiftOperator, Option.bind_some, phrases,
    htype,
    Option.bind_none]

/-- No compound statement starts with an expression, unless the words `async` and `match` start
    one. -/
theorem compound?_opening (ht : t.isOpening = true)
    (hasync : t.isWord "async" = true → secondAfterAsync (t :: ts) = some (false, t :: ts))
    (hmatch : t.isWord "match" = true → matchStatement p suite margin (t :: ts) = none) :
    compound? p suite margin (t :: ts) = some (none, t :: ts) := by
  have hat := Token.isMark_opening ht "@" (by decide)
  by_cases hkind : t.kind = .word
  · have hnot : ∀ text, (Token.bare .word text).isOpening = false → t.text ≠ text :=
      fun text htext => text_opening ht hkind htext
    have hopening : ∀ text ∈ compoundWords, (Token.bare .word text).isOpening = false := by decide
    have hwords : t.text ∉ compoundWords := fun hmem => hnot t.text (hopening t.text hmem) rfl
    have hword {text : String} (htext : t.text = text) : t.isWord text = true := by
      rw [Token.isWord, hkind, htext, beq_self_eq_true]
      rfl
    rw [compound?, run_bind, run_peek]
    simp only [Option.bind_some, hat, Bool.false_eq_true, if_false, hkind, ne_eq, not_true]
    change (fun q : Parser (Option Stmt) => q (t :: ts) = some (none, t :: ts)) _
    split
    case h_8 htext =>
      simp only [run_bind, hasync (hword htext), Option.bind_some, Bool.false_eq_true, if_false,
        run_pure]
    case h_9 htext =>
      simp only [run_orElse, run_map, hmatch (hword htext), Option.bind_none, Option.orElse_none,
        run_pure]
    all_goals first
      | rfl
      | next htext => exact absurd (by rw [htext]; decide) hwords
  · simp only [compound?, run_bind, run_peek, Option.bind_some, run_ite, hat, Bool.false_eq_true,
      if_false, hkind, ne_eq, not_false_eq_true, if_true, run_pure]

theorem secondAfterAsync_none (h : ∀ c ∈ ts.head?, c.kind = .mark ∨ c.gap.breaksLine = true) :
    secondAfterAsync (t :: ts) = some (false, t :: ts) := by
  rcases ts with _ | ⟨c, ts⟩
  · rfl
  · have hc : (!c.gap.breaksLine && (c.isWord "def" || c.isWord "for" || c.isWord "with")) =
        false := by
      rcases h c rfl with hmark | hbreaks
      · have hword (text : String) : c.isWord text = false := by
          rw [Token.isWord, hmark]
          rfl
        simp only [hword, Bool.or_self, Bool.and_false]
      · simp only [hbreaks, Bool.not_true, Bool.false_and]
    rw [secondAfterAsync, run_second, hc]

/-- Where no expression starts behind the word `match`, it is a name. -/
theorem matchStatement_none (ht : t.isWord "match" = true)
    (hsees : (Frame.head margin).Sees ts (u :: us)) (hu : u.startsExpression = false)
    (hunary : u.unary? = none) (n : Nat) :
    matchStatement (phrases n) suite margin (t :: ts) = none := by
  have hexpr : expressionAt (n + 1) (.head margin) Level.any (u :: us) = none :=
    expressionAt_none hu hunary (n + 1) Level.any
  simp only [matchStatement, run_bind, hsees.word ht, Option.bind_some, listed_eq, run_discard,
    phrases, hexpr, Option.bind_none]

/-! ## Keywords -/

/-- No compound statement starts with the keyword of a simple one. -/
theorem compound?_keyword (hkind : t.kind = .word) (htext : t.text ∈ simpleWords) :
    compound? p suite margin (t :: ts) = some (none, t :: ts) := by
  have hat : t.isMark "@" = false := by
    rw [Token.isMark, hkind]
    rfl
  rw [compound?, run_bind, run_peek]
  simp only [Option.bind_some, hat, Bool.false_eq_true, if_false, hkind, ne_eq, not_true]
  change (fun q : Parser (Option Stmt) => q (t :: ts) = some (none, t :: ts)) _
  split
  all_goals first
    | rfl
    | next heq => exact absurd (heq ▸ htext) (by decide)

section Keyword

variable (hsees : f.Sees ts (u :: us))

include hsees

theorem simple_pass (ht : t.isWord "pass" = true) :
    simple p f (t :: ts) = some (.passStmt t.span, u :: us) := by
  obtain ⟨hkind, htext⟩ := Token.isWord_bare ht
  simp only [simple, run_bind, run_peek, Option.bind_some, keywordStatement?, hkind, htext, ne_eq,
    not_true, if_false, run_discard, hsees.shift, run_pure]

theorem simple_break (ht : t.isWord "break" = true) :
    simple p f (t :: ts) = some (.breakStmt t.span, u :: us) := by
  obtain ⟨hkind, htext⟩ := Token.isWord_bare ht
  simp only [simple, run_bind, run_peek, Option.bind_some, keywordStatement?, hkind, htext, ne_eq,
    not_true, if_false, run_discard, hsees.shift, run_pure]

theorem simple_continue (ht : t.isWord "continue" = true) :
    simple p f (t :: ts) = some (.continueStmt t.span, u :: us) := by
  obtain ⟨hkind, htext⟩ := Token.isWord_bare ht
  simp only [simple, run_bind, run_peek, Option.bind_some, keywordStatement?, hkind, htext, ne_eq,
    not_true, if_false, run_discard, hsees.shift, run_pure]

theorem simple_return_none (ht : t.isWord "return" = true) (hu : u.startsExpression = false) :
    simple p f (t :: ts) = some (.returnStmt t.span none, u :: us) := by
  obtain ⟨hkind, htext⟩ := Token.isWord_bare ht
  simp only [simple, run_bind, run_peek, Option.bind_some, keywordStatement?, hkind, htext, ne_eq,
    not_true, if_false, run_discard, hsees.shiftOperator, hu, Bool.false_eq_true, run_pure]

theorem simple_raise_none (ht : t.isWord "raise" = true) (hu : u.startsExpression = false)
    (hfrom : u.isWord "from" = false) :
    simple p f (t :: ts) = some (.raiseStmt t.span none false, u :: us) := by
  obtain ⟨hkind, htext⟩ := Token.isWord_bare ht
  simp only [simple, run_bind, run_peek, Option.bind_some, keywordStatement?, hkind, htext, ne_eq,
    not_true, if_false, run_discard, hsees.shiftOperator, hu, hfrom, run_atWord, Bool.false_eq_true,
    run_pure]

variable (hu : u.startsExpression = true) (hgap : u.gap.continuations = [])
  (hvalue : p.expr f Level.any (u :: us) = some (e, v :: rest)) (hcomma : v.isMark "," = false)

include hu hgap hvalue hcomma

theorem simple_return_some (ht : t.isWord "return" = true) :
    simple p f (t :: ts) = some (.returnStmt t.span (some e), v :: rest) := by
  obtain ⟨hkind, htext⟩ := Token.isWord_bare ht
  simp only [simple, run_bind, run_peek, Option.bind_some, keywordStatement?, hkind, htext, ne_eq,
    not_true, if_false, run_discard, hsees.shiftOperator, hu, if_true, firstPart, run_continuations,
    hgap, sequence_alone hvalue hcomma, run_pure]

theorem simple_raise_some (ht : t.isWord "raise" = true) (hfrom : v.isWord "from" = false) :
    simple p f (t :: ts) = some (.raiseStmt t.span (some e) false, v :: rest) := by
  obtain ⟨hkind, htext⟩ := Token.isWord_bare ht
  simp only [simple, run_bind, run_peek, Option.bind_some, keywordStatement?, hkind, htext, ne_eq,
    not_true, if_false, run_discard, hsees.shiftOperator, hu, if_true, firstPart, run_continuations,
    run_map, hgap, sequence_alone hvalue hcomma, run_atWord, hfrom, Bool.false_eq_true, run_pure]

end Keyword

/-! ## Imports -/

section Import

variable {name : ImportedName} {names : List ImportedName} {source : String}

theorem simple_import (ht : t.isWord "import" = true) (hsees : f.middle.Sees ts us)
    (hnames : importedNames f us = some (name :: names, rest)) :
    simple p f (t :: ts) = some (.importStmt t.span none name names, rest) := by
  obtain ⟨hkind, htext⟩ := Token.isWord_bare ht
  simp only [simple, run_bind, run_peek, Option.bind_some, keywordStatement?, hkind, htext, ne_eq,
    not_true, if_false, run_discard, hsees.shift, hnames, importOf, run_pure]

variable (ht : t.isWord "from" = true) (hsees : f.middle.Sees ts (u :: us))
  (hfuture : u.isWord "__future__" = false)
  (hmodule : covered (moduleName f.middle) (u :: us) = some (((), source), c :: mid))
  (hc : c.isWord "import" = true) (hsees' : f.middle.Sees mid (v :: vs))

include ht hsees hfuture hmodule hc hsees'

theorem simple_from_star (hv : v.isMark "*" = true) (hend : f.Sees vs rest) :
    simple p f (t :: ts) = some (.importStmt t.span (some source) ⟨"*", none⟩ [], rest) := by
  obtain ⟨hkind, htext⟩ := Token.isWord_bare ht
  simp only [simple, run_bind, run_peek, Option.bind_some, keywordStatement?, hkind, htext, ne_eq,
    not_true, if_false, importFrom, run_discard, hsees.shift, run_atWord, hfuture,
    Bool.false_eq_true, hmodule, hsees'.word hc, run_atMark, hv, if_true, hend.shift, importOf,
    run_pure]

theorem simple_from_names (hstar : v.isMark "*" = false) (hparen : v.isMark "(" = false)
    (hnames : importedNames f (v :: vs) = some (name :: names, rest)) :
    simple p f (t :: ts) = some (.importStmt t.span (some source) name names, rest) := by
  obtain ⟨hkind, htext⟩ := Token.isWord_bare ht
  simp only [simple, run_bind, run_peek, Option.bind_some, keywordStatement?, hkind, htext, ne_eq,
    not_true, if_false, importFrom, run_discard, hsees.shift, run_atWord, hfuture,
    Bool.false_eq_true, hmodule, hsees'.word hc, run_atMark, hstar, importList,
    mark?_of_ne hparen, hnames, importOf, run_pure]

end Import

/-! ## Lines -/

/-- The only statement of a line. -/
theorem simpleLine_of (h : simple p (.statement margin) ts = some (stmt, v.lineEnd :: rest)) :
    simpleLine p margin ts = some ([stmt], rest) := by
  have hlisted : listed (.statement margin) ";" Continuation.toStmt (fun t => t.kind ≠ .lineEnd)
      (simple p (.statement margin)) ts = some (([stmt], false), v.lineEnd :: rest) :=
    listed_alone h rfl
  simp only [simpleLine, run_bind, hlisted, Option.bind_some, run_atKind, Token.lineEnd,
    decide_true, run_require, run_discard, run_takeToken, run_pure]

theorem statementLine_simple (hcompound : compound? p suite margin ts = some (none, ts))
    (h : simple p (.statement margin) ts = some (stmt, v.lineEnd :: rest)) :
    statementLine p suite margin ts = some ([stmt], rest) := by
  simp only [statementLine, run_bind, hcompound, Option.bind_some, simpleLine_of h]

end Sentences

end Rendition.Source
