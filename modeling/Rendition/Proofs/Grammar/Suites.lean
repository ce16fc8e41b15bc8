import Rendition.Proofs.Grammar.Enclosure
import Rendition.Proofs.Grammar.Sentences

/-!
# Statements with suites

A block ends in front of a line that is indented less. A clause of a statement stands on a line as
deep as the statement, so the first word of the next line tells whether the statement goes on.

## Main definitions

* `Token.Under`: The first token of a line that ends all deeper blocks.
* `Token.Follows`: Such a token that goes on with no statement.
* `branchesFrom`, `clausesFrom`: The clauses of a statement after those that were read.

## Theorems

* `extend_block_next`: A block goes on with a statement.
* `suiteAt_block`: A suite is a block of its own.
* `compound?_if`, `compound?_try`, …: Statements with suites from their parts.
-/

namespace Rendition.Source

/-- The words that go on with a statement behind a suite of it. -/
def clauseWords : List String :=
  ["elif", "else", "except", "finally"]

namespace Token

/-- The first token of a line that ends all blocks deeper than the given indentation. -/
structure Under (margin : Nat) (v : Token) : Prop where
  breaks : v.gap.breaksLine = true
  indent : v.gap.indent ≤ margin
  arrow : v.isMark ">>" = false

/-- Such a token that goes on with no statement of the block of this indentation. -/
structure Follows (margin : Nat) (v : Token) : Prop extends Under margin v where
  clause : v.gap.indent = margin → ∀ text ∈ clauseWords, v.isWord text = false

variable {margin inner : Nat} {v : Token}

theorem Under.leavesBlock (h : v.Under margin) (hlt : margin < inner) :
    v.leavesBlock inner = true := by
  rw [Token.leavesBlock, h.breaks, Bool.true_and, decide_eq_true_eq]
  exact Nat.lt_of_le_of_lt h.indent hlt

/-- In a deeper block it goes on with no statement, whatever it is. -/
theorem Under.follows (h : v.Under margin) (hlt : margin < inner) : v.Follows inner := by
  refine ⟨⟨h.breaks, Nat.le_trans h.indent (Nat.le_of_lt hlt), h.arrow⟩, fun heq => ?_⟩
  exact absurd heq (Nat.ne_of_lt (Nat.lt_of_le_of_lt h.indent hlt))

theorem leavesBlock_self (h : v.gap.indent = margin) : v.leavesBlock margin = false := by
  rw [leavesBlock, h, decide_eq_false (Nat.lt_irrefl margin), Bool.and_false]

end Token

section Suites

variable {p : Phrases} {suite : SuiteParser} {margin : Nat} {whole : Bool} {t u v c : Token}
  {ts us vs mid rest : List Token} {text : String}

/-! ## Clauses -/

theorem atClause_follows (h : v.Follows margin) (text : String) (htext : text ∈ clauseWords) :
    atClause margin text (v :: vs) = some (false, v :: vs) := by
  have hclause : (v.isWord text && !v.leavesBlock margin) = false := by
    rcases Nat.eq_or_lt_of_le h.indent with heq | hlt
    · rw [h.clause heq text htext, Bool.false_and]
    · rw [Token.leavesBlock, h.breaks, decide_eq_true hlt]
      exact Bool.and_false _
  simp only [atClause, run_bind, run_peek, Option.bind_some, hclause, run_pure]

theorem atClause_word (ht : t.isWord text = true) (hindent : t.gap.indent = margin) :
    atClause margin text (t :: ts) = some (true, t :: ts) := by
  simp only [atClause, run_bind, run_peek, Option.bind_some, ht, Token.leavesBlock_self hindent,
    Bool.not_false, Bool.and_self, run_pure]

theorem atClause_other (ht : t.isWord text = true) (text' : String)
    (hne : (text == text') = false) : atClause margin text' (t :: ts) = some (false, t :: ts) := by
  simp only [atClause, run_bind, run_peek, Option.bind_some, Token.isWord_of_isWord ht text' hne,
    Bool.false_and, run_pure]

/-! ## Blocks -/

/-- One more statement of a block. -/
def blockStep (p : Phrases) (suite : SuiteParser) (margin : Nat) (whole : Bool)
    (statements : List Stmt) : Parser (Option (List Stmt)) := do
  let t ← peek
  if t.kind = .sourceEnd || t.leavesBlock margin then return none
  else
    let leading := t.gap.continuations.map Continuation.toStmt
    let leading := if whole || !statements.isEmpty then leading else []
    return some (statements ++ leading ++ (← statementLine p suite margin))

theorem block_eq : block p suite margin whole = extend (blockStep p suite margin whole) [] := rfl

theorem extend_block_done (statements : List Stmt)
    (h : v.kind = .sourceEnd ∨ v.leavesBlock margin = true) :
    extend (blockStep p suite margin whole) statements (v :: vs) =
      some (statements, v :: vs) := by
  have hends : (decide (v.kind = .sourceEnd) || v.leavesBlock margin) = true := by
    rcases h with h | h
    · rw [decide_eq_true h, Bool.true_or]
    · rw [h, Bool.or_true]
  refine extend_done ?_
  simp only [blockStep, run_bind, run_peek, Option.bind_some, hends, if_true, run_pure]

/-- A block goes on with a statement. -/
theorem extend_block_next {statements more : List Stmt} {r : List Stmt × List Token}
    (hkind : t.kind ≠ .sourceEnd) (hleaves : t.leavesBlock margin = false)
    (hgap : t.gap.continuations = [])
    (hline : statementLine p suite margin (t :: ts) = some (more, rest))
    (hlength : rest.length ≤ ts.length)
    (hrest : extend (blockStep p suite margin whole) (statements ++ more) rest = some r) :
    extend (blockStep p suite margin whole) statements (t :: ts) = some r := by
  have hgoes : (decide (t.kind = .sourceEnd) || t.leavesBlock margin) = false := by
    rw [decide_eq_false hkind, hleaves, Bool.or_self]
  refine extend_more (b := statements ++ more) ?_ (Nat.lt_succ_of_le hlength) hrest
  simp only [blockStep, run_bind, run_peek, Option.bind_some, hgoes, Bool.false_eq_true, if_false,
    hgap, List.map_nil, ite_self, List.append_nil, hline, run_pure]

/-- A suite is a block of its own if the line ends behind the colon. -/
theorem suiteAt_block {fuel : Nat} {body : List Stmt} (ht : t.isMark ":" = true)
    (hbreaks : u.gap.breaksLine = true) (hindent : margin < u.gap.indent)
    (hgap : u.gap.continuations = [])
    (hblock : block p (suiteAt p fuel) u.gap.indent false (u :: us) = some (body, rest)) :
    suiteAt p (fuel + 1) margin (t :: u :: us) = some (([], body), rest) := by
  simp only [suiteAt, run_bind, run_atMark, ht, Option.bind_some, run_require, run_discard,
    run_takeToken, run_peek, hbreaks, Bool.not_true, Bool.false_eq_true, if_false, hindent, if_true,
    hgap, hblock, run_pure]

/-! ## Branches -/

/-- One more branch of a conditional statement. -/
def branchStep (p : Phrases) (suite : SuiteParser) (margin : Nat) (branches : List Branch) :
    Parser (Option (List Branch)) := do
  if ← atClause margin "elif" then
    let t ← shiftOperator (.head margin)
    let test ← p.expr (.head margin) Level.any
    let (_, body) ← suite margin
    return some (branches ++ [.elifBranch t.span test body])
  else return none

/-- The branches of a conditional statement after those that were read. -/
def branchesFrom (p : Phrases) (suite : SuiteParser) (margin : Nat) (branches : List Branch) :
    Parser (List Branch) := do
  let branches ← extend (branchStep p suite margin) branches
  if ← atClause margin "else" then
    discard (shift (.head margin))
    let (_, body) ← suite margin
    return branches ++ [.elseBranch body]
  else return branches

theorem branches_eq : branches p suite margin = branchesFrom p suite margin [] := rfl

theorem branchesFrom_done (h : v.Follows margin) (done : List Branch) :
    branchesFrom p suite margin done (v :: vs) = some (done, v :: vs) := by
  have hstep : branchStep p suite margin done (v :: vs) = some (none, v :: vs) := by
    simp only [branchStep, run_bind, atClause_follows h "elif" (by decide),
      Option.bind_some, Bool.false_eq_true, if_false, run_pure]
  simp only [branchesFrom, run_bind, extend_done hstep, Option.bind_some,
    atClause_follows h "else" (by decide), Bool.false_eq_true, if_false, run_pure]

section Clause

variable {body : List Stmt} {e : Expr}

theorem branchesFrom_else {lead : List Continuation} (done : List Branch)
    (ht : t.isWord "else" = true) (hindent : t.gap.indent = margin)
    (hsees : (Frame.head margin).Sees ts us)
    (hsuite : suite margin us = some ((lead, body), rest)) :
    branchesFrom p suite margin done (t :: ts) = some (done ++ [.elseBranch body], rest) := by
  have hstep : branchStep p suite margin done (t :: ts) = some (none, t :: ts) := by
    simp only [branchStep, run_bind, atClause_other ht "elif" (by decide), Option.bind_some,
      Bool.false_eq_true, if_false, run_pure]
  simp only [branchesFrom, run_bind, extend_done hstep, Option.bind_some,
    atClause_word ht hindent, if_true, run_discard, hsees.shift, hsuite, run_pure]

theorem branchesFrom_elif {lead : List Continuation} {done : List Branch}
    {r : List Branch × List Token} (ht : t.isWord "elif" = true) (hindent : t.gap.indent = margin)
    (hsees : (Frame.head margin).Sees ts us)
    (htest : p.expr (.head margin) Level.any us = some (e, mid))
    (hsuite : suite margin mid = some ((lead, body), rest)) (hlength : rest.length ≤ ts.length)
    (hrest : branchesFrom p suite margin (done ++ [.elifBranch t.span e body]) rest = some r) :
    branchesFrom p suite margin done (t :: ts) = some r := by
  have hstep : branchStep p suite margin done (t :: ts) =
      some (some (done ++ [.elifBranch t.span e body]), rest) := by
    simp only [branchStep, run_bind, atClause_word ht hindent, Option.bind_some, if_true,
      hsees.shiftOperator, htest, hsuite, run_pure]
  rw [branchesFrom, run_bind] at hrest ⊢
  obtain ⟨⟨done', rest'⟩, hextend, hrun⟩ := Option.bind_eq_some_iff.mp hrest
  rw [extend_more hstep (Nat.lt_succ_of_le hlength) hextend]
  exact hrun

/-! ## Loops -/

theorem loopElse_none (h : v.Follows margin) :
    loopElse suite margin (v :: vs) = some (none, v :: vs) := by
  simp only [loopElse, run_bind, atClause_follows h "else" (by decide), Option.bind_some,
    Bool.false_eq_true, if_false, run_pure]

/-! ## Handlers -/

theorem caught_nil {f : Frame} (hc : c.isMark ":" = true) (hgap : c.gap.continuations = []) :
    caught p f (c :: ts) = some ([], c :: ts) := by
  simp only [caught, run_bind, run_atMark, Token.isMark_of_isMark hc "*" (by decide),
    Option.bind_some, Bool.false_eq_true, if_false, run_pure, run_continuations, hgap, List.map_nil,
    hc, if_true]

/-- One item in the head of a handler. -/
def caughtItem (p : Phrases) (f : Frame) : Parser Caught := do
  let (e, text) ← covered (p.expr f Level.any)
  return ⟨e, text⟩

/-- One more item in the head of a handler. -/
def caughtStep (p : Phrases) (f : Frame) (items : List Caught) : Parser (Option (List Caught)) := do
  if ← atMark "," then
    let before := (← continuations).map Continuation.toCaught
    discard (shiftOperator f)
    let after := (← continuations).map Continuation.toCaught
    return some (items ++ before ++ after ++ [← caughtItem p f])
  else return none

theorem caught_eq (f : Frame) : caught p f = do
    if ← atMark "*" then discard (shiftOperator f)
    let before := (← continuations).map Continuation.toCaught
    if ← atMark ":" then return before
    else
      let first ← caughtItem p f
      let items ← extend (caughtStep p f) (before ++ [first])
      let after := (← continuations).map Continuation.toCaught
      return items ++ after := rfl

/-- The head of a handler for one expression. -/
theorem caught_single {f : Frame} (ht : t.isOpening = true) (hgap : t.gap.continuations = [])
    (h : covered (p.expr f Level.any) (t :: ts) = some ((e, text), c :: rest))
    (hc : c.isMark ":" = true) (hgap' : c.gap.continuations = []) :
    caught p f (t :: ts) = some ([⟨e, text⟩], c :: rest) := by
  have hstep : caughtStep p f [⟨e, text⟩] (c :: rest) = some (none, c :: rest) := by
    simp only [caughtStep, run_bind, run_atMark, Token.isMark_of_isMark hc "," (by decide),
      Option.bind_some, Bool.false_eq_true, if_false, run_pure]
  simp only [caught_eq, run_bind, run_atMark, Token.isMark_opening ht "*" (by decide),
    Token.isMark_opening ht ":" (by decide), Option.bind_some, Bool.false_eq_true, if_false,
    run_pure, run_continuations, hgap, hgap', List.map_nil, List.nil_append, caughtItem, h,
    extend_done hstep, List.append_nil]

theorem exceptClause_of {items : List Caught} (hgap : t.gap.continuations = [])
    (hsees : (Frame.head margin).Sees ts us)
    (hcaught : caught p (.head margin) us = some (items, mid))
    (hsuite : suite margin mid = some (([], body), rest)) :
    exceptClause p suite margin (t :: ts) = some ([.except t.span items body], rest) := by
  simp only [exceptClause, run_bind, run_continuations, hgap, Option.bind_some, hsees.shiftOperator,
    hcaught, hsuite, run_pure, List.map_nil, List.append_nil, List.nil_append]

/-- One more handler of a `try` statement. -/
def handlerStep (p : Phrases) (suite : SuiteParser) (margin : Nat) (clauses : List Clause) :
    Parser (Option (List Clause)) := do
  if ← atClause margin "except" then
    return some (clauses ++ (← exceptClause p suite margin))
  else return none

/-- The clauses of a `try` statement after the handlers that were read. -/
def clausesFrom (p : Phrases) (suite : SuiteParser) (margin : Nat) (handlers : List Clause) :
    Parser (List Clause) := do
  let handlers ← extend (handlerStep p suite margin) handlers
  let orelse ← do
    if ← atClause margin "else" then
      let before := (← continuations).map Continuation.toClause
      let t ← shift (.head margin)
      discard (suite margin)
      pure (before ++ [.other t.span "else_clause"])
    else pure []
  let final ← do
    if ← atClause margin "finally" then
      let before := (← continuations).map Continuation.toClause
      discard (shift (.head margin))
      let (_, body) ← suite margin
      pure (before ++ [.finally body])
    else pure []
  return handlers ++ orelse ++ final

theorem clauses_eq : clauses p suite margin = clausesFrom p suite margin [] := rfl

theorem clausesFrom_done (h : v.Follows margin) (done : List Clause) :
    clausesFrom p suite margin done (v :: vs) = some (done, v :: vs) := by
  have hstep : handlerStep p suite margin done (v :: vs) = some (none, v :: vs) := by
    simp only [handlerStep, run_bind, atClause_follows h "except" (by decide),
      Option.bind_some, Bool.false_eq_true, if_false, run_pure]
  simp only [clausesFrom, run_bind, extend_done hstep, Option.bind_some,
    atClause_follows h "else" (by decide),
    atClause_follows h "finally" (by decide), Bool.false_eq_true, if_false, run_pure,
    List.append_nil]

theorem clausesFrom_finally {lead : List Continuation} (done : List Clause)
    (ht : t.isWord "finally" = true) (hindent : t.gap.indent = margin)
    (hgap : t.gap.continuations = []) (hsees : (Frame.head margin).Sees ts us)
    (hsuite : suite margin us = some ((lead, body), rest)) :
    clausesFrom p suite margin done (t :: ts) = some (done ++ [.finally body], rest) := by
  have hstep : handlerStep p suite margin done (t :: ts) = some (none, t :: ts) := by
    simp only [handlerStep, run_bind, atClause_other ht "except" (by decide), Option.bind_some,
      Bool.false_eq_true, if_false, run_pure]
  simp only [clausesFrom, run_bind, extend_done hstep, Option.bind_some,
    atClause_other ht "else" (by decide), Bool.false_eq_true, if_false, run_pure,
    atClause_word ht hindent, if_true, run_continuations, hgap, List.map_nil, run_discard,
    hsees.shift, hsuite, List.append_nil, List.nil_append]

theorem clausesFrom_except {done more : List Clause} {r : List Clause × List Token}
    (ht : t.isWord "except" = true) (hindent : t.gap.indent = margin)
    (hclause : exceptClause p suite margin (t :: ts) = some (more, rest))
    (hlength : rest.length ≤ ts.length)
    (hrest : clausesFrom p suite margin (done ++ more) rest = some r) :
    clausesFrom p suite margin done (t :: ts) = some r := by
  have hstep : handlerStep p suite margin done (t :: ts) = some (some (done ++ more), rest) := by
    simp only [handlerStep, run_bind, atClause_word ht hindent, Option.bind_some, if_true, hclause,
      run_pure]
  rw [clausesFrom, run_bind] at hrest ⊢
  obtain ⟨⟨done', rest'⟩, hextend, hrun⟩ := Option.bind_eq_some_iff.mp hrest
  rw [extend_more hstep (Nat.lt_succ_of_le hlength) hextend]
  exact hrun

end Clause

/-! ## Items of `with` statements -/

/-- Items separated by commas. -/
def itemList (expr : ExprParser) (f : Frame) : Parser (List Expr) := do
  let (items, _) ← listed f "," (fun _ => none) Token.startsExpression (some <$> expr f Level.any)
  return items.filterMap id

/-- Items between parentheses that belong to the statement. -/
def enclosedItems (expr : ExprParser) (f : Frame) : Parser (List Expr) := do
  discard (mark f.inside "(")
  let items ← itemList expr f.inside
  require (2 ≤ items.length)
  require (← atMark ")")
  discard (shift f)
  require (← atMark ":")
  return items

theorem withItems_eq (f : Frame) : withItems p f =
    (enclosedItems p.expr f <|> itemList p.expr f) := rfl

section Items

variable {expr : ExprParser} {f : Frame} {es : List Expr}

/-- Without an opening parenthesis there is none around the items. -/
theorem enclosedItems_mark (ht : t.isMark "(" = false) :
    enclosedItems expr f (t :: ts) = none := by
  simp only [enclosedItems, run_bind, run_discard, mark_of_ne ht, Option.bind_none]

/-- Around no item, or around one, the parentheses do not belong to the statement. -/
theorem enclosedItems_few (ht : t.isMark "(" = true) (hsees : f.inside.Sees ts us)
    (h : itemList expr f.inside us = none ∨
      ∃ e rest, itemList expr f.inside us = some ([e], rest)) :
    enclosedItems expr f (t :: ts) = none := by
  simp only [enclosedItems, run_bind, run_discard, hsees.mark ht, Option.bind_some]
  rcases h with hnone | ⟨e, rest, hsingle⟩
  · rw [hnone]
    rfl
  · rw [hsingle]
    rfl

/-- Nor do they if the colon does not follow. -/
theorem enclosedItems_open (ht : t.isMark "(" = true) (hsees : f.inside.Sees ts us)
    (h : itemList expr f.inside us = some (es, c :: mid)) (hc : c.isMark ")" = true)
    (hsees' : f.Sees mid (v :: vs)) (hv : v.isMark ":" = false) :
    enclosedItems expr f (t :: ts) = none := by
  simp only [enclosedItems, run_bind, run_discard, hsees.mark ht, Option.bind_some, h]
  rcases decide (2 ≤ es.length)
  · rfl
  · simp only [run_require, Option.bind_some, run_atMark, hc, hsees'.shift, hv]
    rfl

theorem itemList_of (es : List Expr) {sep : Bool}
    (h : listed f "," (fun _ => none) Token.startsExpression (some <$> expr f Level.any) ts =
      some ((es.map some, sep), rest)) :
    itemList expr f ts = some (es, rest) := by
  simp only [itemList, run_bind, h, Option.bind_some, run_pure, List.filterMap_map,
    Function.id_comp, List.filterMap_some]

theorem itemList_none (h : expr f Level.any ts = none) : itemList expr f ts = none := by
  simp only [itemList, listed_eq, run_bind, run_map, h, Option.bind_none]

end Items

theorem withItems_plain {f : Frame} (h : enclosedItems p.expr f ts = none) :
    withItems p f ts = itemList p.expr f ts := by
  rw [withItems_eq, run_orElse, h]
  rfl

/-! ## Statements -/

section Statements

variable {e e' : Expr} {lead : List Continuation} {body : List Stmt} {s : Stmt}

theorem statementLine_compound (h : compound? p suite margin ts = some (some s, rest)) :
    statementLine p suite margin ts = some ([s], rest) := by
  simp only [statementLine, run_bind, h, Option.bind_some, run_pure]

/-- A keyword is no mark. -/
theorem isMark_keyword (ht : t.isWord text = true) (text' : String) : t.isMark text' = false := by
  rw [Token.isMark, (Token.isWord_bare ht).1]
  rfl

theorem compound?_if {bs : List Branch} (ht : t.isWord "if" = true)
    (hsees : (Frame.head margin).Sees ts us)
    (htest : p.expr (.head margin) Level.any us = some (e, mid))
    (hsuite : suite margin mid = some ((lead, body), rest))
    (hbranches : branches p suite margin rest = some (bs, vs)) :
    compound? p suite margin (t :: ts) = some (some (.ifStmt t.span e body bs), vs) := by
  obtain ⟨hkind, htext⟩ := Token.isWord_bare ht
  simp only [compound?, run_bind, run_peek, Option.bind_some, isMark_keyword ht, Bool.false_eq_true,
    if_false, hkind, htext, ne_eq, not_true, run_discard, hsees.shiftOperator, htest, hsuite,
    hbranches, run_pure]

theorem compound?_while (ht : t.isWord "while" = true) (hsees : (Frame.head margin).Sees ts us)
    (htest : p.expr (.head margin) Level.any us = some (e, mid))
    (hsuite : suite margin mid = some ((lead, body), v :: vs)) (hv : v.Follows margin) :
    compound? p suite margin (t :: ts) =
      some (some (.whileLoop t.span e body none), v :: vs) := by
  obtain ⟨hkind, htext⟩ := Token.isWord_bare ht
  simp only [compound?, run_bind, run_peek, Option.bind_some, isMark_keyword ht, Bool.false_eq_true,
    if_false, hkind, htext, ne_eq, not_true, run_discard, hsees.shiftOperator, htest, hsuite,
    loopElse_none hv, run_pure]

theorem compound?_for {ws : List Token} (ht : t.isWord "for" = true)
    (hsees : (Frame.head margin).Sees ts us)
    (htarget : targets p.expr (.head margin) us = some (e, c :: mid)) (hc : c.isWord "in" = true)
    (hsees' : (Frame.head margin).Sees mid ws)
    (hiter : sequence p.expr (.head margin) ws = some (e', rest))
    (hsuite : suite margin rest = some ((lead, body), v :: vs)) (hv : v.Follows margin) :
    compound? p suite margin (t :: ts) =
      some (some (.forLoop t.span e e' body none), v :: vs) := by
  obtain ⟨hkind, htext⟩ := Token.isWord_bare ht
  simp only [compound?, run_bind, run_peek, Option.bind_some, isMark_keyword ht, Bool.false_eq_true,
    if_false, hkind, htext, ne_eq, not_true, forStatement, run_discard, hsees.word ht, htarget,
    hsees'.word hc, hiter, hsuite, loopElse_none hv, run_pure]

theorem compound?_try {cs : List Clause} (ht : t.isWord "try" = true)
    (hsees : (Frame.head margin).Sees ts us)
    (hsuite : suite margin us = some (([], body), rest))
    (hclauses : clauses p suite margin rest = some (cs, vs)) :
    compound? p suite margin (t :: ts) = some (some (.tryStmt t.span body cs), vs) := by
  obtain ⟨hkind, htext⟩ := Token.isWord_bare ht
  simp only [compound?, run_bind, run_peek, Option.bind_some, isMark_keyword ht, Bool.false_eq_true,
    if_false, hkind, htext, ne_eq, not_true, run_discard, hsees.shift, hsuite, hclauses, run_pure,
    List.map_nil, List.nil_append]

theorem compound?_with {es : List Expr} (ht : t.isWord "with" = true)
    (hsees : (Frame.head margin).Sees ts us)
    (hitems : withItems p (.head margin) us = some (e :: es, mid))
    (hsuite : suite margin mid = some ((lead, body), rest)) :
    compound? p suite margin (t :: ts) = some (some (.withStmt t.span e es body), rest) := by
  obtain ⟨hkind, htext⟩ := Token.isWord_bare ht
  simp only [compound?, run_bind, run_peek, Option.bind_some, isMark_keyword ht, Bool.false_eq_true,
    if_false, hkind, htext, ne_eq, not_true, withStatement, run_discard, hsees.word ht, hitems,
    hsuite, run_pure]

section Definition

variable {name : Token} (hsees : (Frame.head margin).Sees ts us)
  (hname : identifier (.head margin) us = some (name, c :: mid))

include hsees hname

/-- A class without bases. -/
theorem compound?_class_alone (ht : t.isWord "class" = true) (hc : c.isMark ":" = true)
    (hsuite : suite margin (c :: mid) = some ((lead, body), rest)) :
    compound? p suite margin (t :: ts) =
      some (some (.classDef t.span name.text none body), rest) := by
  obtain ⟨hkind, htext⟩ := Token.isWord_bare ht
  simp only [compound?, run_bind, run_peek, Option.bind_some, isMark_keyword ht, Bool.false_eq_true,
    if_false, hkind, htext, ne_eq, not_true, classDefinition, hsees.word ht, hname, run_atMark,
    Token.isMark_of_isMark hc "[" (by decide), Token.isMark_of_isMark hc "(" (by decide), run_pure,
    hsuite]

theorem compound?_class {span : Span} {args : List (Option String × Expr)}
    (ht : t.isWord "class" = true) (hc : c.isMark "(" = true)
    (hargs : arguments p.expr (.head margin) (c :: mid) = some ((span, some args), vs))
    (hsuite : suite margin vs = some ((lead, body), rest)) :
    compound? p suite margin (t :: ts) =
      some (some (.classDef t.span name.text (some (span, args)) body), rest) := by
  obtain ⟨hkind, htext⟩ := Token.isWord_bare ht
  simp only [compound?, run_bind, run_peek, Option.bind_some, isMark_keyword ht, Bool.false_eq_true,
    if_false, hkind, htext, ne_eq, not_true, classDefinition, hsees.word ht, hname, run_atMark,
    Token.isMark_of_isMark hc "[" (by decide), hc, if_true, hargs, run_pure, hsuite]

theorem compound?_def {params : List Param} {ws : List Token} (ht : t.isWord "def" = true)
    (hc : c.isMark "(" = true) (hsees' : (Frame.head margin).inside.Sees mid ws)
    (hparams : itemsUntil (.head margin) ")" Continuation.toParam
      (parameter p.expr (some (p.type (Frame.head margin).inside true)) (Frame.head margin).inside)
      ws = some (params, u :: vs))
    (hu : u.isMark ":" = true) (hsuite : suite margin (u :: vs) = some ((lead, body), rest)) :
    compound? p suite margin (t :: ts) =
      some (some (.functionDef t.span name.text params body), rest) := by
  obtain ⟨hkind, htext⟩ := Token.isWord_bare ht
  simp only [compound?, run_bind, run_peek, Option.bind_some, isMark_keyword ht, Bool.false_eq_true,
    if_false, hkind, htext, ne_eq, not_true, functionDefinition, run_discard, hsees.word ht, hname,
    run_atMark, Token.isMark_of_isMark hc "[" (by decide), hsees'.mark hc, hparams,
    mark?_of_ne (Token.isMark_of_isMark hu "->" (by decide)), run_pure, hsuite]

end Definition

end Statements

end Suites

end Rendition.Source
