import Rendition.Proofs.Grammar.Compound
import Rendition.Proofs.Grammar.Ordered
import Rendition.Proofs.Grammar.ProperExprs

/-!
# Proper statements along a course

Every definition of the grammar of statements finds proper statements, given that expressions are
proper and the suites inside are.

## Main definitions

* `Construct.Proper`: The promises of the grammar hold of a construct.
* `Course.FindsPhrases`, `Course.FindsSuites`: A parser finds proper expressions, or suites.

## Theorems

* `finds_expressionStatement`, `finds_simple`: Simple statements.
* `finds_branches`, `finds_clauses`: What belongs to a statement behind its first suite.
* `finds_compound?`: Compound statements.
* `finds_block`, `findsSuites_suiteAt`: Blocks and suites.
* `proper_of_parseTokens?`: The statements of a source text.
* `read_grammatical`: What a source text is read as.
-/

namespace Rendition.Source

/-- The promises of the grammar hold of a construct. -/
def Construct.Proper : Construct → Prop
  | expr e => e.Proper
  | stmt s => s.Proper

/-- A statement is proper if its pieces are. -/
theorem Stmt.Proper.of_pieces {s : Stmt} (hallowed : s.Allowed) (h : ∀ x ∈ s.pieces, x.Proper) :
    s.Proper :=
  .mk hallowed (fun e he => h (.expr e) he) fun p hp => h (.stmt p) hp

theorem Stmt.Proper.other (span : Span) (construct : String) :
    (Stmt.other span construct).Proper :=
  .of_pieces trivial (List.forall_mem_nil _)

theorem forall_mem_exprs {es : List Expr} (h : ∀ e ∈ es, e.Proper) :
    ∀ x ∈ es.map Construct.expr, x.Proper :=
  List.forall_mem_map.mpr h

theorem forall_mem_stmts {body : List Stmt} (h : ∀ s ∈ body, s.Proper) :
    ∀ x ∈ body.map Construct.stmt, x.Proper :=
  List.forall_mem_map.mpr h

namespace Clause

/-- The promises of the grammar hold of what is inside a clause. -/
def Proper (clause : Clause) : Prop :=
  ∀ x ∈ clause.pieces, x.Proper

/-- What is executed at last is a piece of a clause. -/
theorem exists_of_mem_finalSuite {clauses : List Clause} {s : Stmt}
    (h : s ∈ finalSuite clauses) : ∃ clause ∈ clauses, Construct.stmt s ∈ clause.pieces := by
  induction clauses with
  | nil => cases h
  | cons clause rest ih =>
    have hrest : s ∈ finalSuite rest → ∃ x ∈ clause :: rest, Construct.stmt s ∈ x.pieces := by
      intro h
      obtain ⟨x, hx, hpiece⟩ := ih h
      exact ⟨x, .tail _ hx, hpiece⟩
    cases clause with
    | «finally» body =>
      rw [finalSuite] at h
      split at h
      · exact ⟨_, .head _, List.mem_map_of_mem h⟩
      · exact hrest h
    | _ => exact hrest h

/-- What is inside clauses is a piece of one of them. -/
theorem exists_of_mem_inside {clauses : List Clause} {x : Construct} (h : x ∈ inside clauses) :
    ∃ clause ∈ clauses, x ∈ clause.pieces := by
  rcases List.mem_append.mp h with h | h
  · obtain ⟨part, hpart, hx⟩ := List.mem_flatMap.mp h
    obtain ⟨clause, hclause, heq⟩ := List.mem_filterMap.mp hpart
    cases clause with
    | except span caught body =>
      cases heq
      exact ⟨_, hclause, hx⟩
    | _ => cases heq
  · obtain ⟨s, hs, rfl⟩ := List.mem_map.mp h
    exact exists_of_mem_finalSuite hs

end Clause

namespace Course

variable {c : Course}

/-- Expressions are proper, and types are followed. -/
structure FindsPhrases (c : Course) (p : Phrases) : Prop where
  expr : c.FindsExprs p.expr
  type : ∀ f bounded, c.Steady (p.type f bounded)

theorem FindsPhrases.reads {p : Phrases} (h : c.FindsPhrases p) : c.ReadsPhrases p :=
  ⟨h.expr.reads, h.type⟩

section Simple

variable {p : Phrases} (hp : c.FindsPhrases p)

include hp

/-! ## Assignments -/

theorem finds_assignment? (f : Frame) {value : Parser Expr} (hvalue : c.Finds Expr.Proper value)
    (left : Expr) :
    c.Finds (fun r => ∀ a ∈ r, left.isPattern = true ∧ ∀ e ∈ Assigned.exprs a, e.Proper)
      (assignment? p f value left) := by
  have hright : left.isPattern = true →
      c.Finds (fun r => ∀ a ∈ r, left.isPattern = true ∧ ∀ e ∈ Assigned.exprs a, e.Proper)
        (do return some (.plain (some (← value)))) := fun hleft =>
    hvalue.bind fun e he => .pure fun a ha => by
      cases ha
      exact ⟨hleft, List.forall_mem_singleton.mpr he⟩
  refine .front fun _ t _ => .ite (fun _ => .require fun hleft => ?_) fun _ =>
    .ite (fun _ => .require fun hleft => ?_) fun _ => ?_
  · exact .pass (follows_shiftOperator f.middle) (hright hleft)
  · refine .pass (follows_shiftOperator f.middle) (.step (hp.type f true).follows fun _ =>
      .step (steady_mark? f.middle "=").follows fun _ => .ite (fun _ => hright hleft) fun _ => ?_)
    exact .pure fun a ha => by
      cases ha
      exact ⟨hleft, List.forall_mem_nil _⟩
  · rcases t.augmented? with _ | op
    · exact .pure fun a ha => by cases ha
    · refine .require fun hleft => .pass (follows_shiftOperator f.middle)
        (hvalue.bind fun e he => .pure fun a ha => ?_)
      cases ha
      exact ⟨hleft, List.forall_mem_singleton.mpr he⟩

theorem finds_assigned (f : Frame) : c.Finds Expr.Proper (assigned p f) := by
  have hwithin : ∀ fuel, c.Finds Expr.Proper (assignedAt p f fuel) := by
    intro fuel
    induction fuel with
    | zero => exact .failure
    | succ fuel ih =>
      refine .step (steady_atWord "yield").follows fun _ => .ite
        (fun _ => finds_yielded hp.expr f) fun _ => (finds_sequence hp.expr f).bind fun e he =>
        (finds_assignment? hp f ih e).bind ?_
      rintro (_ | _ | _) -
      · exact .pure he
      · exact .pure (.leaf trivial rfl)
      · exact .pure (.leaf trivial rfl)
  exact fun ts => hwithin _ ts

theorem finds_expressionStatement (f : Frame) :
    c.Finds Stmt.Proper (expressionStatement p f) := by
  refine .front fun _ t _ => .step (steady_atWord "yield").follows fun _ => .ite
    (fun _ => (finds_yielded hp.expr f).bind fun e he => ?_) fun _ =>
    (finds_sequence hp.expr f).bind fun e he =>
      (finds_assignment? hp f (finds_assigned hp f) e).bind ?_
  · exact .pure (.of_pieces trivial (List.forall_mem_singleton.mpr he))
  · rintro (_ | value | ⟨op, value⟩) hassigned
    · exact .pure (.of_pieces trivial (List.forall_mem_singleton.mpr he))
    · obtain ⟨hleft, hvalue⟩ := hassigned _ rfl
      exact .pure (.of_pieces hleft (List.forall_mem_cons.mpr ⟨he, forall_mem_exprs hvalue⟩))
    · obtain ⟨hleft, hvalue⟩ := hassigned _ rfl
      exact .pure (.of_pieces hleft (List.forall_mem_cons.mpr ⟨he, forall_mem_exprs hvalue⟩))

/-! ## Simple statements -/

omit hp in
theorem finds_importOf (span : Span) (source : Option String) (names : List ImportedName) :
    c.Finds Stmt.Proper (importOf span source names) := by
  cases names with
  | nil => exact .failure
  | cons name names => exact .pure (.of_pieces trivial (List.forall_mem_nil _))

omit hp in
theorem finds_importFrom (f : Frame) (span : Span) :
    c.Finds Stmt.Proper (importFrom f span) := by
  refine .pass (follows_shift f.middle) (.step (steady_atWord _).follows fun _ =>
    .ite (fun _ => ?_) fun _ => ?_)
  · exact .pass (follows_shift f.middle) (.pass (follows_word f.middle _)
      (.pass (steady_importList f).follows (.pure (.other _ _))))
  · refine .step (steady_moduleName f.middle).covered.follows fun source =>
      .pass (follows_word f.middle _) (.step (steady_atMark "*").follows fun _ =>
        .ite (fun _ => ?_) fun _ => ?_)
    · exact .pass (follows_shift f) (finds_importOf _ _ _)
    · exact .step (steady_importList f).follows fun names => finds_importOf _ _ _

omit hp in
/-- A line continuation is a proper expression, too. -/
theorem finds_firstPart {operand : Parser Expr} (h : c.Finds Expr.Proper operand) :
    c.Finds Expr.Proper (firstPart operand) := by
  refine .step follows_continuations fun before => h.bind fun e he => ?_
  cases before with
  | nil => exact .pure he
  | cons x before => exact .pure (.toExpr x)

omit hp in
theorem finds_ended {statement : Parser Stmt} (h : c.Finds Stmt.Proper statement) :
    c.Finds Stmt.Proper (ended statement) :=
  h.bind fun _ hs => .step steady_atStatementEnd.follows fun _ => .require fun _ => .pure hs

theorem finds_printed (f : Frame) (span : Span) : c.Finds Stmt.Proper (printed p f span) := by
  refine .pass (follows_shiftOperator f) (.step (steady_mark? f.middle _).follows fun _ =>
    .ite (fun _ => ?_) fun _ => ?_)
  · refine .pass (follows_expr hp.expr.reads f Level.any) (.step (steady_mark? f _).follows
      fun _ => .ite (fun _ => ?_) fun _ => .pure (.other _ _))
    exact .front fun _ t _ => .ite
      (fun _ => .pass (follows_sequence hp.expr.reads f) (.pure (.other _ _)))
      fun _ => .pure (.other _ _)
  · exact .pass (follows_sequence hp.expr.reads f) (.pure (.other _ _))

theorem finds_executed (f : Frame) (span : Span) : c.Finds Stmt.Proper (executed p f span) := by
  have hrest : c.Finds Stmt.Proper (do
      if ← atWord "in" then
        discard (shiftOperator f.middle)
        discard (commaSeparated f (p.expr f Level.any))
      return .other span "exec_statement") :=
    .step (steady_atWord "in").follows fun _ => .ite
      (fun _ => .pass (follows_shiftOperator f.middle)
        (.pass (follows_commaSeparated_expr hp.reads f) (.pure (.other _ _))))
      fun _ => .pure (.other _ _)
  refine .pass (follows_shiftOperator f) (.front fun _ t _ => .ite (fun _ => ?_) fun _ => ?_)
  · exact .step (steady_literal hp.expr f).follows fun _ => hrest
  · exact .pass (follows_identifier f) hrest

theorem finds_typeAlias (f : Frame) (span : Span) : c.Finds Stmt.Proper (typeAlias p f span) :=
  .pass (follows_shiftOperator f) (.step (hp.type f.middle true).follows fun _ =>
    .pass (follows_mark f.middle "=") (.step (hp.type f true).follows fun _ =>
      .pure (.other _ _)))

theorem finds_raised (f : Frame) (span : Span) {e : Option Expr} (he : ∀ e' ∈ e, e'.Proper) :
    c.Finds Stmt.Proper (do
      if ← atWord "from" then
        discard (shiftOperator f.middle)
        discard (p.expr f Level.any)
        return .raiseStmt span e true
      else return .raiseStmt span e false) := by
  have hraise : ∀ caused, Stmt.Proper (.raiseStmt span e caused) := fun _ =>
    .of_pieces trivial (forall_mem_exprs fun e' h => he e' (Option.mem_toList.mp h))
  exact .step (steady_atWord "from").follows fun _ => .ite
    (fun _ => .pass (follows_shiftOperator f.middle)
      (.pass (follows_expr hp.expr.reads f Level.any) (.pure (hraise true))))
    fun _ => .pure (hraise false)

/-- A statement that a reserved word starts. -/
theorem finds_keywordStatement? (f : Frame) (t : Token) :
    ∀ q ∈ keywordStatement? p f t, c.Finds Stmt.Proper q := by
  have hsome : ∀ {q : Parser Stmt}, c.Finds Stmt.Proper q →
      ∀ q' ∈ some q, c.Finds Stmt.Proper q' := fun h q' hq => Option.some.inj hq ▸ h
  have hword : ∀ s : Stmt, s.Allowed → s.pieces = [] →
      c.Finds Stmt.Proper (do discard (shift f); return s) := fun s hallowed hpieces =>
    .pass (follows_shift f) (.pure (.of_pieces hallowed (by
      rw [hpieces]
      exact List.forall_mem_nil _)))
  have hfirst := finds_firstPart (finds_sequence hp.expr f)
  have hnames : ∀ construct, c.Finds Stmt.Proper (do
      discard (shift f.middle)
      discard (commaSeparated f (identifier f))
      return .other t.span construct) := fun construct =>
    .pass (follows_shift f.middle)
      (.pass (follows_commaSeparated f (follows_identifier f)) (.pure (.other _ _)))
  rw [keywordStatement?]
  split
  · exact fun q hq => by cases hq
  -- One case for each word that starts a statement.
  generalize t.text = text
  split
  · exact hsome (hword _ trivial rfl)
  · exact hsome (hword _ trivial rfl)
  · exact hsome (hword _ trivial rfl)
  · -- What is returned.
    refine hsome (.pass (follows_shiftOperator f) (.front fun _ u _ => .ite (fun _ => ?_) fun _ =>
      .pure (.of_pieces trivial (List.forall_mem_nil _))))
    exact hfirst.bind fun e he => .pure (.of_pieces trivial (List.forall_mem_singleton.mpr he))
  · -- What is raised.
    refine hsome (.pass (follows_shiftOperator f) (.front fun _ u _ => .ite (fun _ => ?_) fun _ =>
      finds_raised hp f t.span fun e he => by cases he))
    have hpresent : c.Finds (fun e => ∀ e' ∈ e, Expr.Proper e')
        (some <$> firstPart (sequence p.expr f)) :=
      hfirst.map fun e he _ heq => Option.some.inj heq ▸ he
    exact hpresent.bind fun e he => finds_raised hp f t.span he
  · exact hsome (.pass (follows_shiftOperator f.middle)
      (.pass (follows_sequence hp.expr.reads f) (.pure (.other _ _))))
  · exact hsome (.pass (follows_shiftOperator f.middle)
      (.pass (follows_commaSeparated_expr hp.reads f) (.pure (.other _ _))))
  · exact hsome (hnames _)
  · exact hsome (hnames _)
  · exact hsome (.pass (follows_shift f.middle)
      (.step (steady_importedNames f).follows fun names => finds_importOf _ _ _))
  · exact hsome (finds_importFrom f t.span)
  · exact fun q hq => by cases hq

theorem finds_simple (f : Frame) : c.Finds Stmt.Proper (simple p f) := by
  refine .front fun _ t _ => ?_
  have hkeyword := finds_keywordStatement? hp f t
  rcases hq : keywordStatement? p f t with _ | q
  · have hexpression := finds_expressionStatement hp f
    refine .ite (fun _ => .step (steady_second fun _ => rfl).follows fun _ =>
      .ite (fun _ => finds_printed hp f t.span) fun _ => ?_) fun _ => .ite (fun _ => ?_) fun _ =>
      .ite (fun _ => ?_) fun _ => hexpression
    · exact .orElse (finds_ended hexpression) (finds_printed hp f t.span)
    · exact .orElse (finds_ended hexpression) (finds_executed hp f t.span)
    · exact .orElse (finds_ended (finds_typeAlias hp f t.span)) hexpression
  · exact hkeyword q hq

theorem finds_simpleLine (margin : Nat) :
    c.Finds (fun body => ∀ s ∈ body, s.Proper) (simpleLine p margin) := by
  refine (finds_listed (fun x => .other _ _) (finds_simple hp (.statement margin)) _ ";" _).bind ?_
  rintro ⟨body, separated⟩ hbody
  exact .step (steady_atKind .lineEnd).follows fun _ => .require fun _ =>
    .pass follows_takeToken (.pure hbody)

end Simple

/-- Suites are proper, and they are followed. -/
structure FindsSuites (c : Course) (suite : SuiteParser) : Prop where
  reads : c.ReadsSuites suite
  proper : ∀ margin, c.Finds (fun r => ∀ s ∈ r.2, Stmt.Proper s) (suite margin)

section Compound

variable {p : Phrases} (hp : c.FindsPhrases p) {suite : SuiteParser} (hsuite : c.FindsSuites suite)

/-! ## Clauses -/

theorem finds_atClause (margin : Nat) (text : String) :
    c.Finds (fun _ => True) (atClause margin text) :=
  .front fun _ _ _ => .pure trivial

include hsuite

theorem finds_loopElse (margin : Nat) : c.Finds (fun _ => True) (loopElse suite margin) := by
  refine (finds_atClause margin "else").bind fun _ _ => .ite (fun _ => ?_) fun _ => .pure trivial
  exact .step (follows_shift _) fun t => .pass (follows_suite hsuite.reads margin) (.pure trivial)

include hp

theorem finds_branches (margin : Nat) :
    c.Finds (fun r => ∀ s ∈ Branch.statements r, s.Proper) (branches p suite margin) := by
  -- A branch with a condition is a statement with the branches behind it inside.
  refine Finds.bind (P := fun r => ∀ rest, (∀ s ∈ Branch.statements rest, s.Proper) →
    ∀ s ∈ Branch.statements (r ++ rest), s.Proper) (.extend (a := []) (fun _ h => h) fun r hr => ?_)
    fun r hr => ?_
  · refine (finds_atClause margin "elif").bind fun _ _ => .ite (fun _ => ?_) fun _ =>
      .pure fun _ h => by cases h
    refine .step (follows_shiftOperator _) fun t =>
      (hp.expr.proper _ Level.any).bind fun test htest => (hsuite.proper margin).bind ?_
    rintro ⟨leading, body⟩ hbody
    refine .pure fun b hb rest hrest => ?_
    obtain rfl := Option.some.inj hb
    rw [List.append_assoc]
    refine hr _ (List.forall_mem_singleton.mpr (.of_pieces trivial (List.forall_mem_cons.mpr
      ⟨htest, List.forall_mem_append.mpr ⟨forall_mem_stmts hbody, forall_mem_stmts hrest⟩⟩)))
  · refine (finds_atClause margin "else").bind fun _ _ => .ite (fun _ => ?_) fun _ => ?_
    · refine .pass (follows_shift _) ((hsuite.proper margin).bind ?_)
      rintro ⟨leading, body⟩ hbody
      exact .pure (hr [.elseBranch body] hbody)
    · have hall := hr [] (List.forall_mem_nil _)
      rw [List.append_nil] at hall
      exact .pure hall

omit hp hsuite in
/-- Line continuations behind what an `except` clause lists. -/
theorem forall_mem_caught {items : List Caught} (h : ∀ item ∈ items, item.expr.Proper)
    (cs : List Continuation) :
    ∀ item ∈ items ++ cs.map Continuation.toCaught, item.expr.Proper :=
  List.forall_mem_append.mpr ⟨h, List.forall_mem_map.mpr fun x _ => .toExpr x⟩

omit hsuite in
theorem finds_caught (f : Frame) :
    c.Finds (fun r => ∀ item ∈ r, item.expr.Proper) (caught p f) := by
  refine .step (steady_atMark "*").follows fun _ => ?_
  extract_lets item rest
  have hitem : c.Finds (fun item => item.expr.Proper) item :=
    (hp.expr.proper f Level.any).covered.bind fun r hr => .pure hr
  have hrest : c.Finds (fun r => ∀ item ∈ r, item.expr.Proper) (rest ()) := by
    refine .step follows_continuations fun before => ?_
    have hbefore := forall_mem_caught (List.forall_mem_nil _) before
    refine .step (steady_atMark ":").follows fun _ => .ite (fun _ => .pure hbefore) fun _ =>
      hitem.bind fun first hfirst => Finds.bind (P := fun r => ∀ item ∈ r, item.expr.Proper)
        (.extend (List.forall_mem_append.mpr ⟨hbefore, List.forall_mem_singleton.mpr hfirst⟩)
          fun items hitems => ?_) fun items hitems => ?_
    · refine .step (steady_atMark ",").follows fun _ => .ite (fun _ => ?_) fun _ =>
        .pure fun _ h => by cases h
      refine .step follows_continuations fun before => .pass (follows_shiftOperator f)
        (.step follows_continuations fun after => hitem.bind fun next hnext => .pure fun _ h => ?_)
      obtain rfl := Option.some.inj h
      exact List.forall_mem_append.mpr ⟨forall_mem_caught (forall_mem_caught hitems before) after,
        List.forall_mem_singleton.mpr hnext⟩
    · exact .step follows_continuations fun after => .pure (forall_mem_caught hitems after)
  exact .ite (fun _ => .pass (follows_shiftOperator f) hrest) fun _ => hrest

theorem finds_exceptClause (margin : Nat) :
    c.Finds (fun r => ∀ clause ∈ r, Clause.Proper clause)
      (exceptClause p suite margin) := by
  refine .step follows_continuations fun before => .step (follows_shiftOperator _) fun t =>
    (finds_caught hp _).bind fun listed hlisted => (hsuite.proper margin).bind ?_
  rintro ⟨leading, body⟩ hbody
  refine .pure (List.forall_mem_append.mpr ⟨?_, List.forall_mem_singleton.mpr ?_⟩)
  · exact List.forall_mem_map.mpr fun x _ => List.forall_mem_nil _
  · exact List.forall_mem_append.mpr ⟨List.forall_mem_map.mpr (forall_mem_caught hlisted leading),
      forall_mem_stmts hbody⟩

theorem finds_clauses (margin : Nat) :
    c.Finds (fun r => ∀ clause ∈ r, Clause.Proper clause)
      (clauses p suite margin) := by
  have hcontinuation : ∀ x : Continuation, x.toClause.Proper := fun _ =>
    List.forall_mem_nil _
  refine Finds.bind (P := fun r => ∀ clause ∈ r, Clause.Proper clause)
    (.extend (List.forall_mem_nil _) fun r hr => ?_) fun handlers hhandlers => ?_
  · refine (finds_atClause margin "except").bind fun _ _ => .ite (fun _ => ?_) fun _ =>
      .pure fun _ h => by cases h
    refine (finds_exceptClause hp hsuite margin).bind fun more hmore => .pure fun _ h => ?_
    exact Option.some.inj h ▸ List.forall_mem_append.mpr ⟨hr, hmore⟩
  refine (finds_atClause margin "else").bind fun _ _ => ?_
  extract_lets rest
  have hrest : ∀ {orelse}, (∀ clause ∈ orelse, Clause.Proper clause) →
      c.Finds (fun r => ∀ clause ∈ r, Clause.Proper clause) (rest orelse) := by
    intro orelse horelse
    have hbefore := List.forall_mem_append.mpr ⟨hhandlers, horelse⟩
    refine (finds_atClause margin "finally").bind fun _ _ => .ite (fun _ => ?_) fun _ => ?_
    · refine .step follows_continuations fun before => .pass (follows_shift _)
        ((hsuite.proper margin).bind ?_)
      rintro ⟨leading, body⟩ hbody
      have hfinal := forall_mem_concat (forall_mem_continued hcontinuation (List.forall_mem_nil _)
        before) (b := Clause.finally body) (forall_mem_stmts hbody)
      exact .pure (List.forall_mem_append.mpr ⟨hbefore, hfinal⟩)
    · exact .pure (List.forall_mem_append.mpr ⟨hbefore, List.forall_mem_nil _⟩)
  refine .ite (fun _ => ?_) fun _ => hrest (List.forall_mem_nil _)
  refine .step follows_continuations fun before => .step (follows_shift _) fun t =>
    .pass (follows_suite hsuite.reads margin) (hrest ?_)
  exact forall_mem_concat (forall_mem_continued hcontinuation (List.forall_mem_nil _) before)
    (b := Clause.other t.span _) (List.forall_mem_nil _)

omit hsuite in
theorem finds_withItems (f : Frame) :
    c.Finds (fun r => ∀ e ∈ r, e.Proper) (withItems p f) := by
  unfold withItems
  extract_lets items enclosed
  have hitem : ∀ f, c.Finds (fun item => ∀ e ∈ item, Expr.Proper e)
      (some <$> p.expr f Level.any) := fun f =>
    (hp.expr.proper f Level.any).map fun e he _ heq => Option.some.inj heq ▸ he
  have hitems : ∀ f, c.Finds (fun r => ∀ e ∈ r, e.Proper) (items f) := by
    refine fun f => (finds_listed (fun x e he => by cases he) (hitem f) f "," _).bind ?_
    rintro ⟨as, separated⟩ has
    refine .pure fun e he => ?_
    obtain ⟨item, hitem, heq⟩ := List.mem_filterMap.mp he
    exact has item hitem e heq
  refine .orElse (.pass (follows_mark _ "(") ((hitems _).bind fun r hr => ?_)) (hitems f)
  exact .require fun _ => .step (steady_atMark ")").follows fun _ => .require fun _ =>
    .pass (follows_shift f) (.step (steady_atMark ":").follows fun _ => .require fun _ => .pure hr)

/-! ## Compound statements -/

theorem finds_functionDefinition (margin : Nat) (span : Span) :
    c.Finds Stmt.Proper (functionDefinition p suite margin span) := by
  refine .pass (follows_word _ "def") ((finds_identifier hp.expr.named _).bind fun name hname =>
    .step (steady_atMark "[").follows fun _ => ?_)
  -- Type parameters and a return type leave nothing behind, so what follows them is treated once.
  extract_lets rest
  have hrest : c.Finds Stmt.Proper (rest ()) := by
    refine .pass (follows_mark _ "(") ((finds_itemsUntil (fun x => allowed_other _ _)
      (finds_parameter hp.expr (fun q hq => ?_) _) _ ")").bind fun params hparams => ?_)
    · obtain rfl := Option.some.inj hq
      exact hp.type _ true
    refine .step (steady_mark? _ "->").follows fun _ => ?_
    extract_lets rest
    have hrest : c.Finds Stmt.Proper (rest ()) := by
      refine (hsuite.proper margin).bind ?_
      rintro ⟨leading, body⟩ hbody
      exact .pure (.of_pieces ⟨hname, hparams⟩ (forall_mem_stmts hbody))
    exact .ite (fun _ => .step (hp.type _ false).follows fun _ => hrest) fun _ => hrest
  exact .ite (fun _ => .step (steady_typeParameters hp.type _).follows fun _ => hrest)
    fun _ => hrest

theorem finds_classDefinition (margin : Nat) :
    c.Finds Stmt.Proper (classDefinition p suite margin) := by
  refine .step (follows_word _ "class") fun t => (finds_identifier hp.expr.named _).bind
    fun name hname => .step (steady_atMark "[").follows fun _ => ?_
  extract_lets inside rest
  have hinside : ∀ bases : Option (Span × List (Option String × Expr)),
      (∀ args ∈ bases, ∀ arg ∈ args.2, ProperArgument arg) →
        c.Finds Stmt.Proper (inside bases) := by
    intro bases hbases
    refine (hsuite.proper margin).bind ?_
    rintro ⟨leading, body⟩ hbody
    refine .pure (.of_pieces hname (List.forall_mem_append.mpr ⟨fun x hx => ?_,
      forall_mem_stmts hbody⟩))
    obtain ⟨args, hargs, hx⟩ := List.mem_flatMap.mp hx
    obtain ⟨arg, harg, rfl⟩ := List.mem_map.mp hx
    exact (hbases args (Option.mem_toList.mp hargs) arg harg).value
  have hrest : c.Finds Stmt.Proper (rest ()) := by
    refine .step (steady_atMark "(").follows fun _ => .ite
      (fun _ => (finds_arguments hp.expr _).bind ?_) fun _ => hinside none fun _ h => by cases h
    rintro ⟨span, _ | args⟩ hargs
    · exact .failure
    · exact hinside (some (span, args)) fun _ h => Option.some.inj h ▸ hargs args rfl
  exact .ite (fun _ => .step (steady_typeParameters hp.type _).follows fun _ => hrest)
    fun _ => hrest

theorem finds_forStatement (margin : Nat) (span : Span) :
    c.Finds Stmt.Proper (forStatement p suite margin span) := by
  refine .pass (follows_word _ "for") ((finds_targets hp.expr _).bind fun target htarget => ?_)
  refine .pass (follows_word _ "in") ((finds_sequence hp.expr _).bind fun iter hiter =>
    (hsuite.proper margin).bind ?_)
  rintro ⟨leading, body⟩ hbody
  exact (finds_loopElse hsuite margin).bind fun orelse _ => .pure (.of_pieces htarget.2
    (List.forall_mem_cons.mpr ⟨htarget.1, List.forall_mem_cons.mpr
      ⟨hiter, forall_mem_stmts hbody⟩⟩))

theorem finds_withStatement (margin : Nat) (span : Span) :
    c.Finds Stmt.Proper (withStatement p suite margin span) := by
  refine .pass (follows_word _ "with") ((finds_withItems hp _).bind ?_)
  rintro (_ | ⟨item, items⟩) hitems
  · exact .failure
  · refine (hsuite.proper margin).bind ?_
    rintro ⟨leading, body⟩ hbody
    exact .pure (.of_pieces trivial (List.forall_mem_append.mpr
      ⟨forall_mem_exprs hitems, forall_mem_stmts hbody⟩))

theorem finds_asyncStatement (margin : Nat) :
    c.Finds Stmt.Proper (asyncStatement p suite margin) :=
  .step (follows_shift _) fun t => .step (steady_atWord "def").follows fun _ =>
    .ite (fun _ => finds_functionDefinition hp hsuite margin t.span) fun _ =>
    .step (steady_atWord "for").follows fun _ =>
    .ite (fun _ => finds_forStatement hp hsuite margin t.span) fun _ =>
      finds_withStatement hp hsuite margin t.span

theorem finds_decorated (margin : Nat) : c.Finds Stmt.Proper (decorated p suite margin) := by
  refine .step (Steady.extend (fun _ => ?_) ()).follows fun _ => ?_
  · refine .bind (steady_mark? _ "@") fun _ => .ite ?_ (.pure _)
    refine .bind (follows_expr hp.expr.reads _ Level.any).discard fun _ =>
      .bind (steady_atKind .lineEnd) fun _ => .bind (steady_require _) fun _ => ?_
    exact steady_passLine _ _
  refine .step (steady_atWord "class").follows fun _ => .ite
    (fun _ => finds_classDefinition hp hsuite margin) fun _ =>
    .step (steady_atWord "async").follows fun _ => .ite (fun _ => ?_) fun _ =>
      .front fun _ t _ => finds_functionDefinition hp hsuite margin t.span
  exact .step (follows_shift _) fun t => finds_functionDefinition hp hsuite margin t.span

/-- A `match` statement leaves nothing behind. -/
theorem finds_matchStatement (margin : Nat) :
    c.Finds Stmt.Proper (matchStatement p suite margin) := by
  have hsubject : c.Steady (discard (p.expr (.head margin) Level.any)) :=
    (follows_expr hp.expr.reads _ Level.any).discard
  refine .step (follows_word _ "match") fun t => .step
    (steady_listed _ (fun _ _ => rfl) hsubject).follows fun _ =>
    .step (steady_atMark ":").follows fun _ => .require fun _ => .pass follows_takeToken
    (.front fun _ first _ => .require fun _ => .ite (fun _ => ?_) fun _ => .pure (.other _ _))
  refine Finds.bind (P := fun _ => True) (.extend trivial fun _ _ => .front fun _ u _ =>
    .ite (fun _ => .pure fun _ _ => trivial) fun _ => ?_) fun _ _ => .pure (.other _ _)
  exact .step (follows_caseClause hp.reads hsuite.reads _) fun _ => .pure fun _ _ => trivial

theorem finds_compound? (margin : Nat) :
    c.Finds (fun r => ∀ s ∈ r, Stmt.Proper s) (compound? p suite margin) := by
  have hsome : ∀ {q : Parser Stmt}, c.Finds Stmt.Proper q →
      c.Finds (fun r => ∀ s ∈ r, Stmt.Proper s) (do return some (← q)) := fun h =>
    h.bind fun s hs => .pure fun _ heq => Option.some.inj heq ▸ hs
  have hnone : c.Finds (fun r => ∀ s ∈ r, Stmt.Proper s) (pure none : Parser (Option Stmt)) :=
    .pure fun _ h => by cases h
  refine .front fun k t ht => .ite (fun _ => hsome (finds_decorated hp hsuite margin)) fun _ =>
    .ite (fun _ => hnone) fun _ => ?_
  -- A condition behind the word, and a suite behind the condition.
  have hcondition : ∀ {g : Expr → List Continuation × List Stmt → Parser (Option Stmt)},
      (∀ test leading body, test.Proper → (∀ s ∈ body, Stmt.Proper s) →
        c.Finds (fun r => ∀ s ∈ r, Stmt.Proper s) (g test (leading, body))) →
      c.Finds (fun r => ∀ s ∈ r, Stmt.Proper s) (do
        discard (shiftOperator (.head margin))
        let test ← p.expr (.head margin) Level.any
        g test (← suite margin)) := by
    refine fun hg => .pass (follows_shiftOperator _)
      ((hp.expr.proper _ _).bind fun test htest => (hsuite.proper margin).bind ?_)
    rintro ⟨leading, body⟩ hbody
    exact hg test leading body htest hbody
  generalize t.text = text
  split
  · exact hsome (finds_functionDefinition hp hsuite margin t.span)
  · exact hsome (finds_classDefinition hp hsuite margin)
  · refine hcondition fun test leading body htest hbody =>
      (finds_branches hp hsuite margin).bind fun branches hbranches => .pure fun _ h => ?_
    obtain rfl := Option.some.inj h
    exact .of_pieces trivial (List.forall_mem_cons.mpr ⟨htest, List.forall_mem_append.mpr
      ⟨forall_mem_stmts hbody, forall_mem_stmts hbranches⟩⟩)
  · refine hcondition fun test leading body htest hbody =>
      (finds_loopElse hsuite margin).bind fun orelse _ => .pure fun _ h => ?_
    obtain rfl := Option.some.inj h
    exact .of_pieces trivial (List.forall_mem_cons.mpr ⟨htest, forall_mem_stmts hbody⟩)
  · exact hsome (finds_forStatement hp hsuite margin t.span)
  · refine .pass (follows_shift _) ((hsuite.proper margin).bind ?_)
    rintro ⟨leading, body⟩ hbody
    refine (finds_clauses hp hsuite margin).bind fun clauses hclauses => .pure fun _ h => ?_
    obtain rfl := Option.some.inj h
    have hall : ∀ clause ∈ leading.map Continuation.toClause ++ clauses, clause.Proper :=
      List.forall_mem_append.mpr
        ⟨List.forall_mem_map.mpr fun _ _ => List.forall_mem_nil _, hclauses⟩
    refine .of_pieces trivial (List.forall_mem_append.mpr
      ⟨forall_mem_stmts hbody, fun x hx => ?_⟩)
    obtain ⟨clause, hclause, hx⟩ := Clause.exists_of_mem_inside hx
    exact hall clause hclause x hx
  · exact hsome (finds_withStatement hp hsuite margin t.span)
  · exact .step (steady_second fun _ => rfl).follows fun _ =>
      .ite (fun _ => hsome (finds_asyncStatement hp hsuite margin)) fun _ => hnone
  · exact .orElse ((finds_matchStatement hp hsuite margin).map fun s hs _ heq =>
      Option.some.inj heq ▸ hs) hnone
  · exact hnone

theorem finds_statementLine (margin : Nat) :
    c.Finds (fun body => ∀ s ∈ body, Stmt.Proper s) (statementLine p suite margin) := by
  refine (finds_compound? hp hsuite margin).bind ?_
  rintro (_ | s) hs
  · exact finds_simpleLine hp margin
  · exact .pure (List.forall_mem_singleton.mpr (hs s rfl))

/-! ## Blocks -/

theorem finds_block (margin : Nat) (whole : Bool) :
    c.Finds (fun body => ∀ s ∈ body, Stmt.Proper s) (block p suite margin whole) := by
  refine .extend (List.forall_mem_nil _) fun body hbody => .front fun _ t _ => .ite
    (fun _ => .pure fun _ h => by cases h) fun _ =>
    (finds_statementLine hp hsuite margin).bind fun line hline => .pure fun _ h => ?_
  obtain rfl := Option.some.inj h
  refine List.forall_mem_append.mpr ⟨List.forall_mem_append.mpr ⟨hbody, ?_⟩, hline⟩
  split
  · exact List.forall_mem_map.mpr fun x _ => .other _ _
  · exact List.forall_mem_nil _

end Compound

/-- Suites are proper, however deep they are nested. -/
theorem findsSuites_suiteAt {p : Phrases} (hp : c.FindsPhrases p) (fuel : Nat) :
    c.FindsSuites (suiteAt p fuel) := by
  refine ⟨readsSuites_suiteAt hp.reads fuel, ?_⟩
  induction fuel with
  | zero => exact fun _ => .failure
  | succ fuel ih =>
    have hsuite : c.FindsSuites (suiteAt p fuel) := ⟨readsSuites_suiteAt hp.reads fuel, ih⟩
    refine fun margin => .step (steady_atMark ":").follows fun _ => .require fun _ =>
      .pass follows_takeToken (.front fun _ t _ => .ite (fun _ => ?_) fun _ =>
        .ite (fun _ => ?_) fun _ => .pure (List.forall_mem_nil _))
    · exact (finds_simpleLine hp margin).bind fun body hbody => .pure hbody
    · exact (finds_block hp hsuite _ false).bind fun body hbody => .pure hbody

/-- The statements that tokens make up are proper. -/
theorem proper_of_parseTokens? (hnamed : c.Named) {body : List Stmt}
    (h : parseTokens? c.tokens = some body) : ∀ s ∈ body, s.Proper := by
  have hp : c.FindsPhrases (phrases c.tokens.length) :=
    ⟨findsExprs_expressionAt hnamed _, (readsPhrases_phrases _).type⟩
  have hsuite := findsSuites_suiteAt hp (c.tokens.length + 1)
  have hstatements : c.Finds (fun body => ∀ s ∈ body, Stmt.Proper s)
      (statements (phrases c.tokens.length)
        (suiteAt (phrases c.tokens.length) (c.tokens.length + 1))) := by
    refine (finds_block hp hsuite 0 true).bind fun body hbody => .front fun _ t _ =>
      .require fun _ => .pure (List.forall_mem_append.mpr ⟨hbody, ?_⟩)
    exact List.forall_mem_map.mpr fun x _ => .other _ _
  obtain ⟨⟨body, rest⟩, hrun, rfl⟩ := Option.map_eq_some_iff.mp h
  exact (hstatements c.tokens ⟨1, c.others, at_start⟩ body rest hrun).1

end Course

/-- What a source text is read as is grammatical. -/
theorem read_grammatical {text : String} {tree : Tree} (h : read text = .ok tree) :
    ∃ body, tree = .mk ⟨1, 0⟩ (.moduleDef body) ∧ ∀ t ∈ body, t.IsStatement fun _ => True := by
  obtain ⟨statements, body, hparse, hreads, rfl⟩ := read_eq_ok h
  have hcovers := covers_tokensWithin (text.toList.length + 1) [] ⟨1, 0⟩ text.toList
  let c := Course.same (tokenize text.toList) hcovers.kind_ne
  have hproper : ∀ s ∈ statements, s.Proper :=
    Course.proper_of_parseTokens? (c := c) (named_tokenize text.toList) hparse
  exact ⟨body, rfl, Stmt.forall_isStatement hreads.length_eq
    (fun p hp => (List.forall₂_zip hreads hp).isStatement) hproper⟩

end Rendition.Source
