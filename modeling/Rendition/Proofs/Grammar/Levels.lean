import Rendition.Proofs.Grammar.Taken
import Rendition.Source.Grammar.Expression

/-!
# Expressions level by level

What the parser of expressions makes of an operand depends on the token behind it: at each level an
operator goes on with the expression, or the expression ends.

## Main definitions

* `Token.isOpening`: Whether the token is a name, a literal or an opening bracket.
* `Token.stops`: Whether every expression of a level ends before a token.
* `linkStep`: One step of the parser of comparisons.

## Theorems

* `operand_binary`, `clause_negation`, `looser_connective`, `looser_conditional`, `clause_lambda`:
  The constructs of the levels.
* `expressionAt_alone`: What is read as an operand is read as an expression of any level.
* `sequenceOf_alone`: It is read as a list of expressions, too.
-/

namespace Rendition

/-- The level of the operands behind a connective. -/
def Connective.rightLevel : Connective → Nat
  | .and => Source.Level.negation
  | .or => Source.Level.conjunction

namespace Source

namespace Token

/-- Whether the token is a name, a literal or an opening bracket. -/
def isOpening (t : Token) : Bool :=
  match t.kind with
  | .word => isVariable t.text || ["True", "False", "None"].contains t.text
  | .integer | .float | .string => true
  | .mark => ["(", "[", "\x7b"].contains t.text
  | _ => false

/-- The token without its place. -/
def bare (kind : TokenKind) (text : String) : Token :=
  ⟨{}, ⟨0, 0⟩, kind, text⟩

variable {t : Token}

theorem isMark_bare {text : String} (h : t.isMark text = true) : t.kind = .mark ∧ t.text = text :=
  ⟨of_decide_eq_true (Bool.and_eq_true_iff.mp h).1, beq_iff_eq.mp (Bool.and_eq_true_iff.mp h).2⟩

theorem isWord_bare {text : String} (h : t.isWord text = true) : t.kind = .word ∧ t.text = text :=
  ⟨of_decide_eq_true (Bool.and_eq_true_iff.mp h).1, beq_iff_eq.mp (Bool.and_eq_true_iff.mp h).2⟩

/-- A test that looks at kind and text only. -/
theorem eq_of_isMark {α : Type} (test : Token → α) (hbare : ∀ t, test t = test (bare t.kind t.text))
    {text : String} (h : t.isMark text = true) : test t = test (bare .mark text) := by
  rw [hbare, (isMark_bare h).1, (isMark_bare h).2]

theorem isWord_of_isMark {text : String} (h : t.isMark text = true) (text' : String) :
    t.isWord text' = false := by
  rw [isWord, (isMark_bare h).1]
  rfl

theorem isMark_of_isMark {text : String} (h : t.isMark text = true) (text' : String)
    (hne : (text == text') = false) : t.isMark text' = false := by
  rw [isMark, (isMark_bare h).2, hne, Bool.and_false]

theorem ne_mark_of_isWord {text : String} (h : t.isWord text = true) : ¬(t.kind = .mark) := by
  rw [(isWord_bare h).1]
  decide

theorem isWord_of_isWord {text : String} (h : t.isWord text = true) (text' : String)
    (hne : (text == text') = false) : t.isWord text' = false := by
  rw [isWord, (isWord_bare h).2, hne, Bool.and_false]

theorem isMark_opening (h : t.isOpening = true) (text : String)
    (htext : (bare .mark text).isOpening = false) : t.isMark text = false := by
  refine Bool.eq_false_iff.mpr fun hmark => ?_
  rw [isOpening, (isMark_bare hmark).1, (isMark_bare hmark).2] at h
  exact Bool.eq_false_iff.mp htext h

theorem isWord_opening (h : t.isOpening = true) (text : String)
    (htext : (bare .word text).isOpening = false) : t.isWord text = false := by
  refine Bool.eq_false_iff.mpr fun hword => ?_
  rw [isOpening, (isWord_bare hword).1, (isWord_bare hword).2] at h
  exact Bool.eq_false_iff.mp htext h

theorem startsOperand_opening (h : t.isOpening = true) : t.startsOperand = true := by
  have hall : ∀ text ∈ ["(", "[", "\x7b"],
      ["(", "[", "\x7b", "+", "-", "~", "*", "..."].contains text = true := by decide
  rcases t with ⟨gap, span, kind, text⟩
  cases kind with
  | mark => exact hall text (List.contains_iff_mem.mp h)
  | _ => first | exact h | rfl

theorem startsExpression_opening (h : t.isOpening = true) : t.startsExpression = true := by
  rw [startsExpression, startsOperand_opening h]
  rfl

theorem unary?_opening (h : t.isOpening = true) : t.unary? = none := by
  rw [unary?]
  refine ite_eq_right_iff.mpr fun hkind => ?_
  have hall : ∀ text ∈ ["(", "[", "\x7b"],
      (UnaryOperator.all.find? fun op => op.symbol == text) = none := by decide
  simp only [isOpening, hkind] at h
  exact hall t.text (List.contains_iff_mem.mp h)

theorem kind_opening (h : t.isOpening = true) : t.kind ≠ .lineEnd ∧ t.kind ≠ .sourceEnd := by
  rw [isOpening] at h
  split at h <;> simp_all

theorem isMark_of_startsOperand (h : t.startsOperand = false) (text : String)
    (htext : (bare .mark text).startsOperand = true) : t.isMark text = false := by
  refine Bool.eq_false_iff.mpr fun hmark => ?_
  rw [startsOperand, (isMark_bare hmark).1, (isMark_bare hmark).2] at h
  exact Bool.eq_false_iff.mp h htext

theorem isWord_of_startsOperand (h : t.startsOperand = false) (text : String)
    (htext : (bare .word text).startsOperand = true) : t.isWord text = false := by
  refine Bool.eq_false_iff.mpr fun hword => ?_
  rw [startsOperand, (isWord_bare hword).1, (isWord_bare hword).2] at h
  exact Bool.eq_false_iff.mp h htext

theorem isMark_lineEnd (h : t.kind = .lineEnd) (text : String) : t.isMark text = false := by
  rw [isMark, h]
  rfl

theorem isWord_lineEnd (h : t.kind = .lineEnd) (text : String) : t.isWord text = false := by
  rw [isWord, h]
  rfl

/-- Whether no bracket, point or operator of arithmetic goes on with an operand. -/
def endsOperand (t : Token) : Bool :=
  !t.startsOperand && !t.isMark "." && !t.isMark ":=" && t.binary?.isNone

/-- Whether the token starts a comparison operator. -/
def compares (t : Token) : Bool :=
  (t.kind = .mark && comparisonMarks.contains t.text) || t.isWord "in" || t.isWord "not"
    || t.isWord "is"

/-- Whether the token goes on with an expression of a level. -/
def loosens (level : Nat) (t : Token) : Bool :=
  (level ≤ Level.comparison && t.compares) || (level ≤ Level.conjunction && t.isWord "and")
    || (level ≤ Level.disjunction && t.isWord "or") || (level ≤ Level.aliased && t.isWord "as")
    || (level ≤ Level.conditional && t.isWord "if")

/-- Whether every expression of a level ends before the token. -/
def stops (level : Nat) (t : Token) : Bool :=
  t.endsOperand && !t.loosens level

/-- What a mark stops depends on its text only. -/
theorem stops_of_isMark {level : Nat} (text : String) (h : t.isMark text = true)
    (htext : (bare .mark text).stops level = true) : t.stops level = true :=
  (eq_of_isMark (stops level) (fun _ => rfl) h).trans htext

theorem endsOperand_iff : t.endsOperand = true ↔ t.startsOperand = false ∧ t.isMark "." = false ∧
    t.isMark ":=" = false ∧ t.binary? = none := by
  simp only [endsOperand, Bool.and_eq_true, Bool.not_eq_true', Option.isNone_iff_eq_none, and_assoc]

theorem loosens_eq_false_iff {level : Nat} : t.loosens level = false ↔
    (decide (level ≤ Level.comparison) && t.compares) = false ∧
    (decide (level ≤ Level.conjunction) && t.isWord "and") = false ∧
    (decide (level ≤ Level.disjunction) && t.isWord "or") = false ∧
    (decide (level ≤ Level.aliased) && t.isWord "as") = false ∧
    (decide (level ≤ Level.conditional) && t.isWord "if") = false := by
  simp only [loosens, Bool.or_eq_false_iff, and_assoc]

theorem stops_iff {level : Nat} :
    t.stops level = true ↔ t.endsOperand = true ∧ t.loosens level = false := by
  rw [stops, Bool.and_eq_true, Bool.not_eq_true']

/-- What stops expressions of the loosest level stops those of any level. -/
theorem stops_of_any {t : Token} (h : t.stops Level.any = true) (level : Nat) :
    t.stops level = true := by
  obtain ⟨hends, hloosens⟩ := stops_iff.mp h
  obtain ⟨hcompares, hand, hor, has, hif⟩ := loosens_eq_false_iff.mp hloosens
  refine stops_iff.mpr ⟨hends, loosens_eq_false_iff.mpr ?_⟩
  have hany (bound : Nat) {b : Bool} (hb : (decide (Level.any ≤ bound) && b) = false) :
      (decide (level ≤ bound) && b) = false := by
    rw [decide_eq_true (show Level.any ≤ bound from Nat.zero_le bound), Bool.true_and] at hb
    rw [hb, Bool.and_false]
  exact ⟨hany _ hcompares, hany _ hand, hany _ hor, hany _ has, hany _ hif⟩

end Token

/-! ## Nothing goes on -/

section Alone

variable {expr : ExprParser} {f : Frame} {e : Expr} {ts rest : List Token} {t u : Token}
  {level : Nat}

/-- In front of other tokens than a point or a bracket no trailer starts. -/
theorem trailer_none (hpoint : u.isMark "." = false) (hparen : u.isMark "(" = false)
    (hbracket : u.isMark "[" = false) :
    trailer expr f e (u :: rest) = some (none, u :: rest) := by
  simp only [trailer, run_bind, mark?_of_ne hpoint, Option.bind_some, Bool.false_eq_true, if_false,
    run_atMark, hparen, hbracket, run_pure]

theorem trailer_ends (hu : u.endsOperand = true) :
    trailer expr f e (u :: rest) = some (none, u :: rest) := by
  obtain ⟨hoperand, hpoint, -⟩ := Token.endsOperand_iff.mp hu
  exact trailer_none hpoint (Token.isMark_of_startsOperand hoperand "(" (by decide))
    (Token.isMark_of_startsOperand hoperand "[" (by decide))

/-- One more string literal of several in a row. -/
def literalStep (expr : ExprParser) (f : Frame) (literals : List (Span × String)) :
    Parser (Option (List (Span × String))) := do
  let t ← peek
  if t.kind = .string || t.kind = .formatOpen then
    let ((), text) ← covered (literal expr f)
    return some (literals ++ [(t.span, text)])
  else return none

theorem literals_eq : literals expr f = do
    let span := (← peek).span
    let literals ← extend (literalStep expr f) []
    match literals with
    | [(span, text)] => return .string span text
    | _ => return .strings span literals := rfl

/-- A string literal is read alone if no other one follows. -/
theorem atom_string (ht : t.kind = .string) (hsees : f.Sees ts (u :: rest))
    (hstring : u.kind ≠ .string) (hformat : u.kind ≠ .formatOpen) :
    atom expr f (t :: ts) = some (.string t.span t.text, u :: rest) := by
  have hliteral : literal expr f ([t] ++ ts) = some ((), u :: rest) := by
    simp only [literal, List.singleton_append, run_bind, run_atKind, ht, Option.bind_some,
      reduceCtorEq, decide_false, Bool.false_eq_true, if_false, run_ite, run_discard,
      hsees.shiftOperator]
  have htext : Token.excerpt [t] = t.text := String.append_empty
  have hcovered := covered_of hliteral hsees
  rw [htext, List.singleton_append] at hcovered
  have hstep : literalStep expr f [] (t :: ts) = some (some [(t.span, t.text)], u :: rest) := by
    simp only [literalStep, run_bind, run_peek, Option.bind_some, ht, decide_true, Bool.true_or,
      if_true, hcovered, run_pure, List.nil_append]
  have hdone : literalStep expr f [(t.span, t.text)] (u :: rest) = some (none, u :: rest) := by
    simp only [literalStep, run_bind, run_peek, Option.bind_some, hstring, hformat, decide_false,
      Bool.or_self, Bool.false_eq_true, if_false, run_pure]
  simp only [atom, run_bind, run_peek, Option.bind_some, ht, literals_eq,
    extend_last hstep (List.cons_ne_nil t ts) hdone, run_pure]

/-- A name, a literal or a bracket starts an operand with its trailers. -/
theorem signed_of_atom {r : Expr × List Token} (ht : t.isOpening = true)
    (hawait : t.isWord "await" = false) {mid : List Token}
    (h : atom expr f (t :: ts) = some (e, mid)) (hr : extend (trailer expr f) e mid = some r) :
    signed expr f (t :: ts) = some r := by
  simp only [signed, run_bind, run_peek, Option.bind_some, Token.unary?_opening ht, run_ite,
    Token.isMark_opening ht "*" (by decide), hawait, Bool.false_eq_true, if_false, h, hr]

/-- Where no operand follows, `await` is a name. -/
theorem signed_await {r : Expr × List Token} (ht : t.isOpening = true)
    (hawait : t.isWord "await" = true) (hsees : f.Sees ts (u :: rest))
    (hu : u.startsOperand = false)
    (hr : extend (trailer expr f) (.ident t.span t.text) (u :: rest) = some r) :
    signed expr f (t :: ts) = some r := by
  simp only [signed, run_bind, run_peek, Option.bind_some, Token.unary?_opening ht, run_ite,
    Token.isMark_opening ht "*" (by decide), hawait, Bool.false_eq_true, if_false, if_true,
    run_discard, hsees.shiftOperator, hu, hr]

/-- An operator in front of an operand. -/
theorem signed_unary {op : UnaryOperator} {us : List Token} (hop : t.unary? = some op)
    (hsees : f.middle.Sees ts us) (h : expr f Level.power us = some (e, rest)) :
    signed expr f (t :: ts) = some (.unary t.span op e, rest) := by
  simp only [signed, run_bind, run_peek, Option.bind_some, hop, run_discard, hsees.shiftOperator, h,
    run_pure]

/-! ## Levels -/

theorem operand_alone (h : signed expr f ts = some (e, u :: rest)) (hbinary : u.binary? = none) :
    operand expr f level ts = some (e, u :: rest) := by
  rw [operand, run_bind, h]
  refine extend_done ?_
  simp only [run_bind, run_peek, Option.bind_some, hbinary, run_pure]

/-- Two operands with an operator between them. -/
theorem operand_binary {right : Expr} {op : Operator} {mid us : List Token}
    (h : signed expr f ts = some (e, t :: mid)) (hop : t.binary? = some op)
    (hlevel : level ≤ op.level) (hsees : f.middle.Sees mid us)
    (hright : expr f op.rightLevel us = some (right, u :: rest))
    (hlength : rest.length < mid.length)
    (hbinary : u.binary? = none) :
    operand expr f level ts = some (.binary e.span e op right, u :: rest) := by
  have hmid : (u :: rest).length < (t :: mid).length := Nat.succ_lt_succ hlength
  simp only [operand, run_bind, h, Option.bind_some]
  refine extend_more (b := .binary e.span e op right) ?_ hmid (extend_done ?_)
  · simp only [run_bind, run_peek, Option.bind_some, hop, run_ite, hlevel, if_true, run_discard,
      hsees.shiftOperator, hright, run_pure]
  · simp only [run_bind, run_peek, Option.bind_some, hbinary, run_pure]

theorem comparisonOperator?_none (hu : u.compares = false) :
    comparisonOperator? f (u :: rest) = some (none, u :: rest) := by
  simp only [Token.compares, Bool.or_eq_false_iff] at hu
  simp only [comparisonOperator?, run_bind, run_peek, Option.bind_some, hu, Bool.false_eq_true,
    if_false, run_pure]

theorem comparisonOperator?_mark {us : List Token} (hkind : t.kind = .mark)
    (htext : comparisonMarks.contains t.text = true) (hsees : f.middle.Sees ts us) :
    comparisonOperator? f (t :: ts) = some (some t.text, us) := by
  simp only [comparisonOperator?, run_bind, run_peek, Option.bind_some, run_ite, hkind, htext,
    decide_true, Bool.and_self, if_true, run_discard, hsees.shiftOperator, run_pure]

theorem comparisonOperator?_in {us : List Token} (ht : t.isWord "in" = true)
    (hsees : f.middle.Sees ts us) : comparisonOperator? f (t :: ts) = some (some t.text, us) := by
  have hkind := Token.ne_mark_of_isWord ht
  simp only [comparisonOperator?, run_bind, run_peek, Option.bind_some, run_ite, hkind,
    decide_false, Bool.false_and, Bool.false_eq_true, if_false, ht, if_true, run_discard,
    hsees.shiftOperator, run_pure]

theorem comparisonOperator?_notIn {us : List Token} (ht : t.isWord "not" = true)
    (hu : u.isWord "in" = true) (hflat : f.middle.Sees (u :: ts) (u :: ts))
    (hsees : f.middle.Sees ts us) :
    comparisonOperator? f (t :: u :: ts) = some (some (Token.excerpt [t, u]), us) := by
  have hkind := Token.ne_mark_of_isWord ht
  have hwords : (do discard (shift f.middle); discard (word f.middle "in") : Parser Unit)
      ([t, u] ++ ts) = some ((), us) := by
    simp only [List.cons_append, List.nil_append, run_bind, run_discard, hflat.shift,
      Option.bind_some, hsees.word hu]
  have hcovered := covered_of hwords hsees
  simp only [List.cons_append, List.nil_append] at hcovered
  simp only [comparisonOperator?, run_bind, run_peek, Option.bind_some, run_ite, hkind,
    decide_false, Bool.false_and, Bool.false_eq_true, if_false, ht, if_true, hcovered, run_pure,
    Token.isWord_of_isWord ht "in" (by decide)]

theorem comparisonOperator?_is {us : List Token} (ht : t.isWord "is" = true)
    (hsees : f.middle.Sees ts (u :: us)) (hu : u.isWord "not" = false) :
    comparisonOperator? f (t :: ts) = some (some (Token.excerpt [t]), u :: us) := by
  have hkind := Token.ne_mark_of_isWord ht
  have hwords : (do
      discard (shiftOperator f.middle)
      if ← atWord "not" then discard (shiftOperator f.middle) : Parser Unit)
      ([t] ++ ts) = some ((), u :: us) := by
    simp only [List.cons_append, List.nil_append, run_bind, run_discard, hsees.shiftOperator,
      Option.bind_some, run_atWord, hu, Bool.false_eq_true, if_false, run_pure]
  have hcovered := covered_of hwords hsees
  simp only [List.cons_append, List.nil_append] at hcovered
  simp only [comparisonOperator?, run_bind, run_peek, Option.bind_some, run_ite, hkind,
    decide_false, Bool.false_and, Bool.false_eq_true, if_false, ht, if_true, hcovered, run_pure,
    Token.isWord_of_isWord ht "in" (by decide), Token.isWord_of_isWord ht "not" (by decide)]

theorem comparisonOperator?_isNot {us : List Token} (ht : t.isWord "is" = true)
    (hu : u.isWord "not" = true) (hflat : f.middle.Sees (u :: ts) (u :: ts))
    (hsees : f.middle.Sees ts us) :
    comparisonOperator? f (t :: u :: ts) = some (some (Token.excerpt [t, u]), us) := by
  have hkind := Token.ne_mark_of_isWord ht
  have hwords : (do
      discard (shiftOperator f.middle)
      if ← atWord "not" then discard (shiftOperator f.middle) : Parser Unit)
      ([t, u] ++ ts) = some ((), us) := by
    simp only [List.cons_append, List.nil_append, run_bind, run_discard, hflat.shiftOperator,
      Option.bind_some, run_atWord, hu, if_true, hsees.shiftOperator]
  have hcovered := covered_of hwords hsees
  simp only [List.cons_append, List.nil_append] at hcovered
  simp only [comparisonOperator?, run_bind, run_peek, Option.bind_some, run_ite, hkind,
    decide_false, Bool.false_and, Bool.false_eq_true, if_false, ht, if_true, hcovered, run_pure,
    Token.isWord_of_isWord ht "in" (by decide), Token.isWord_of_isWord ht "not" (by decide)]

/-- One more comparison of a chain. -/
def linkStep (expr : ExprParser) (f : Frame) (links : List (Link Expr)) :
    Parser (Option (List (Link Expr))) := do
  let before ← continued?
  match ← comparisonOperator? f with
  | some op =>
    let after ← continued?
    return some (links ++ [⟨before, op, after, ← operand expr f Level.operand⟩])
  | none => return none

theorem comparison_eq : comparison expr f = do
    let left ← operand expr f Level.operand
    let links ← extend (linkStep expr f) []
    match links with
    | [] => return left
    | link :: links => return .comparison left.span left link links := rfl

/-- A chain ends where no comparison operator follows. -/
theorem extend_link_done (links : List (Link Expr)) (hu : u.compares = false) :
    extend (linkStep expr f) links (u :: rest) = some (links, u :: rest) := by
  refine extend_done ?_
  simp only [linkStep, run_bind, run_continued?, Option.bind_some, comparisonOperator?_none hu,
    run_pure]

/-- A comparison operator and the operand behind it. -/
theorem linkStep_of {text : String} {us : List Token} {links : List (Link Expr)}
    (hgap : t.gap.continuations = [])
    (hop : comparisonOperator? f (t :: ts) = some (some text, u :: us))
    (hgap' : u.gap.continuations = [])
    (h : operand expr f Level.operand (u :: us) = some (e, rest)) :
    linkStep expr f links (t :: ts) = some (some (links ++ [⟨none, text, none, e⟩]), rest) := by
  simp only [linkStep, run_bind, run_continued?, hgap, hgap', hop, Option.bind_some, h, run_pure,
    List.head?_nil, Option.map_none]

/-- A chain of comparisons. -/
theorem comparison_chain {link : Link Expr} {links : List (Link Expr)} {mid : List Token}
    (h : operand expr f Level.operand ts = some (e, mid))
    (hlinks : extend (linkStep expr f) [] mid = some (link :: links, rest)) :
    comparison expr f ts = some (.comparison e.span e link links, rest) := by
  simp only [comparison_eq, run_bind, h, Option.bind_some, hlinks, run_pure]

theorem comparison_alone (h : operand expr f Level.operand ts = some (e, u :: rest))
    (hu : u.compares = false) : comparison expr f ts = some (e, u :: rest) := by
  simp only [comparison_eq, run_bind, h, Option.bind_some, extend_link_done [] hu, run_pure]

theorem clause_alone (h : comparison expr f (t :: ts) = some (e, u :: rest))
    (hlambda : t.isWord "lambda" = false) (hnot : t.isWord "not" = false)
    (hwalrus : u.isMark ":=" = false) :
    clause expr f level (t :: ts) = some (e, u :: rest) := by
  simp only [clause, run_bind, run_peek, Option.bind_some, run_ite, hlambda, hnot,
    Bool.false_eq_true, if_false, h]
  cases e with
  | ident span name =>
    simp only [run_bind, mark?_of_ne hwalrus, Option.bind_some, Bool.false_eq_true, if_false,
      run_pure]
  | _ => rfl

theorem clause_negation {us : List Token} (hnot : t.isWord "not" = true)
    (hsees : f.middle.Sees ts us) (h : expr f Level.negation us = some (e, u :: rest)) :
    clause expr f level (t :: ts) = some (.negation t.span e, u :: rest) := by
  have hlambda := Token.isWord_of_isWord hnot "lambda" (by decide)
  simp only [clause, run_bind, run_peek, Option.bind_some, run_ite, hlambda, hnot,
    Bool.false_eq_true, if_false, if_true, run_discard, hsees.shiftOperator, h, run_pure]

theorem clause_lambda {params : List Param} {mid us : List Token}
    (hlambda : t.isWord "lambda" = true) (hsees : f.middle.Sees ts us)
    (hparams : lambdaParameters expr f us = some (params, u :: mid)) (hu : u.isMark ":" = true)
    {vs : List Token} (hsees' : f.middle.Sees mid vs)
    (h : expr f Level.any vs = some (e, rest)) :
    clause expr f Level.any (t :: ts) = some (.lambda t.span params e, rest) := by
  have hlevel : Level.any ≠ Level.iterable := by decide
  simp only [clause, run_bind, run_peek, Option.bind_some, run_ite, hlambda, if_true, lambdaOf,
    run_require, run_discard, hsees.shift, hparams, hsees'.mark hu, hlevel, if_false, h, run_pure]

theorem looser_none (hu : u.loosens level = false) :
    looser expr f level e (u :: rest) = some (none, u :: rest) := by
  obtain ⟨-, hand, hor, has, hif⟩ := Token.loosens_eq_false_iff.mp hu
  simp only [looser, run_bind, run_atWord, Option.bind_some, run_pure, run_ite, hand, hor, has, hif,
    Bool.false_eq_true, if_false]

theorem loose_alone (h : clause expr f level ts = some (e, u :: rest))
    (hu : u.loosens level = false) : loose expr f level ts = some (e, u :: rest) := by
  rw [loose, run_bind, h]
  exact extend_done (looser_none hu)

theorem expressionAt_loose (n : Nat) (hlevel : level ≤ Level.comparison) :
    expressionAt (n + 1) f level = loose (expressionAt n) f level :=
  if_pos hlevel

/-- A clause that nothing goes on with is an expression. -/
theorem expressionAt_clause {n : Nat}
    (h : clause (expressionAt n) f Level.any ts = some (e, u :: rest))
    (hu : u.loosens Level.any = false) :
    expressionAt (n + 1) f Level.any ts = some (e, u :: rest) := by
  rw [expressionAt_loose n (by decide)]
  exact loose_alone h hu

/-- A chain of comparisons that nothing goes on with is an expression. -/
theorem expressionAt_comparison {n : Nat}
    (h : comparison (expressionAt n) f (t :: ts) = some (e, u :: rest))
    (hlambda : t.isWord "lambda" = false) (hnot : t.isWord "not" = false)
    (hwalrus : u.isMark ":=" = false) (hlevel : level ≤ Level.comparison)
    (hu : u.loosens level = false) :
    expressionAt (n + 1) f level (t :: ts) = some (e, u :: rest) := by
  rw [expressionAt_loose n hlevel]
  exact loose_alone (clause_alone h hlambda hnot hwalrus) hu

/-- What is read as an operand with its trailers is read as an expression of any level. -/
theorem expressionAt_alone {n : Nat}
    (h : signed (expressionAt n) f (t :: ts) = some (e, u :: rest))
    (hlambda : t.isWord "lambda" = false) (hnot : t.isWord "not" = false)
    (hu : u.stops level = true) :
    expressionAt (n + 1) f level (t :: ts) = some (e, u :: rest) := by
  obtain ⟨hends, hlevel⟩ := Token.stops_iff.mp hu
  obtain ⟨-, -, hwalrus, hbinary⟩ := Token.endsOperand_iff.mp hends
  by_cases hloose : level ≤ Level.comparison
  · have hcompares := (Token.loosens_eq_false_iff.mp hlevel).1
    rw [decide_eq_true hloose, Bool.true_and] at hcompares
    exact expressionAt_comparison (comparison_alone (operand_alone h hbinary) hcompares) hlambda
      hnot
      hwalrus hloose hlevel
  · rw [expressionAt]
    simp only [hloose, if_false]
    exact operand_alone h hbinary

/-- A connective goes on with an expression. -/
theorem looser_connective {op : Connective} {right : Expr} {us : List Token}
    (ht : t.isWord op.symbol = true) (hsees : f.middle.Sees ts us)
    (h : expr f op.rightLevel us = some (right, rest)) :
    looser expr f Level.any e (t :: ts) = some (some (.boolean e.span e op right), rest) := by
  cases op with
  | and =>
    have hand : (decide (Level.any ≤ Level.conjunction) && t.isWord "and") = true := ht
    simp only [looser, run_bind, run_atWord, Option.bind_some, run_pure, run_ite, hand, if_true,
      run_discard, hsees.shiftOperator]
    rw [show expr f Level.negation us = some (right, rest) from h]
    rfl
  | or =>
    have hor : (decide (Level.any ≤ Level.disjunction) && t.isWord "or") = true := ht
    have hand : t.isWord "and" = false := Token.isWord_of_isWord ht "and" (by decide)
    simp only [looser, run_bind, run_atWord, Option.bind_some, run_pure, run_ite, hand, hor,
      if_true,
      Bool.and_false, Bool.false_eq_true, if_false, run_discard, hsees.shiftOperator]
    rw [show expr f Level.conjunction us = some (right, rest) from h]
    rfl

/-- A condition goes on with an expression. -/
theorem looser_conditional {test orelse : Expr} {us mid vs : List Token}
    (hif : t.isWord "if" = true) (hgap : t.gap.continuations = []) (hsees : f.middle.Sees ts us)
    (htest : expr f.middle Level.any us = some (test, u :: mid)) (helse : u.isWord "else" = true)
    (hgap' : u.gap.continuations = []) (hsees' : f.middle.Sees mid vs)
    (horelse : expr f Level.conditional vs = some (orelse, rest)) :
    looser expr f Level.any e (t :: ts) =
      some (some (.conditional e.span false e test orelse), rest) := by
  have hnot := Token.isWord_of_isWord hif
  have hlevel : (decide (Level.any ≤ Level.conditional) && t.isWord "if") = true := hif
  simp only [looser, run_bind, run_atWord, Option.bind_some, run_pure, run_ite,
    hnot "and" (by decide), hnot "or" (by decide),
    hnot "as" (by decide), Bool.and_false, Bool.false_eq_true, if_false, hlevel, if_true,
    run_continued?, hgap, hgap', run_discard, hsees.shiftOperator, hsees.continued?, htest,
    hsees'.word helse, hsees'.continued?, horelse]
  rfl

/-- An alias goes on with an expression. -/
theorem looser_aliased {asName : Expr} {text : String} {us : List Token}
    (ht : t.isWord "as" = true) (hsees : f.middle.Sees ts us)
    (h : covered (expr f Level.disjunction) us = some ((asName, text), rest)) :
    looser expr f Level.any e (t :: ts) = some (some (.aliased e.span e text), rest) := by
  have hnot := Token.isWord_of_isWord ht
  have hlevel : (decide (Level.any ≤ Level.aliased) && t.isWord "as") = true := ht
  simp only [looser, run_bind, run_atWord, Option.bind_some, run_pure, run_ite,
    hnot "and" (by decide), hnot "or" (by decide), Bool.and_false, Bool.false_eq_true, if_false,
    hlevel, if_true, run_discard, hsees.shiftOperator, h]

theorem sequenceOf_alone {starts : Token → Bool} {item : Parser Expr}
    (h : item (t :: ts) = some (e, u :: rest)) (hu : u.isMark "," = false) :
    sequenceOf f starts item (t :: ts) = some (e, u :: rest) := by
  simp only [sequenceOf, run_bind, run_peek, Option.bind_some, listed_alone h hu, run_pure]

end Alone

end Source

end Rendition
