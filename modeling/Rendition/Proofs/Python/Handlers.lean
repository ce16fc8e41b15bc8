import Rendition.Proofs.Python.Aliases
import Rendition.Proofs.Python.Clauses

/-!
# Handlers are read back

A handler catches nothing in particular, or one expression, which may be given a name.

## Main definitions

* `Python.DenotesClauses`: Clauses are read as handlers and a final suite.

## Theorems

* `readsClauses_handlers`: The clauses of a `try` statement are read back.
* `readsLines_tryStmt`: A `try` statement is read back.
-/

namespace Rendition.Python

open Source Source.Lexeme Text

/-! ## What is caught -/

/-- What a handler lists is read as an expression and a name that may be absent. -/
def DenotesCaught (items : List Caught) (exception : Option Tree) (name : Option String) : Prop :=
  ∃ u, readCaught (none, none) items = .ok (u, name) ∧ agreeOption Tree.alike exception u = true

theorem denotesCaught_nil : DenotesCaught [] none none :=
  ⟨none, rfl, rfl⟩

/-- What is caught is an item of a list, with or without a name. -/
theorem denotesCaught_item {e : Expr} {t : Tree} {name : Option String}
    (h : DenotesItem e ⟨t, name⟩) (text : String) : DenotesCaught [⟨e, text⟩] (some t) name := by
  obtain ⟨u, hread, halike⟩ := h
  refine ⟨some u, ?_, halike⟩
  cases e with
  | _ =>
    obtain ⟨v, hvalue, hitem⟩ := bind_eq_ok.mp hread
    obtain ⟨rfl, rfl⟩ := WithItem.mk.inj (Except.ok.inj hitem)
    simp only [readCaught, hvalue, ok_bind]

/-- The head of a handler. -/
def handlerHead (exception : Option Tree) (name : Option String) : Phrase :=
  aliased (fun g => word "except" g :: optionalPhrase exception .blank)
    (name.map fun name => dotted name.toList)

/-- The head of a handler is read up to its colon. -/
theorem caught_head {exception : Option Tree} {name : Option String}
    (hexception : ∀ t ∈ exception, t.IsExpression Faithful)
    (halone : exception = none → name = none)
    (hname : ∀ n ∈ name, IsDotted n.toList) {n : Nat}
    (hn : (handlerHead exception name {}).length ≤ n) (margin : Nat) (s s' : Span) (g : Gap)
    (mid : List Token) : ∃ items us, DenotesCaught items exception name ∧
      lay s (handlerHead exception name g) ++ (mark ":" {}).token s' :: mid =
        (word "except" g).token s :: us ∧
      (Frame.head margin).Sees us us ∧
      caught (phrases n) (.head margin) us = some (items, (mark ":" {}).token s' :: mid) := by
  have hcolon := sees_colon margin s' mid
  rcases exception with _ | t
  · obtain rfl := halone rfl
    exact ⟨[], _, denotesCaught_nil, rfl, hcolon, caught_nil rfl rfl⟩
  · have ht : (WithItem.mk t name).context.IsExpression Faithful := hexception t rfl
    have hhead (g : Gap) : handlerHead (some t) name g =
        word "except" g :: itemPhrase ⟨t, name⟩ .blank := rfl
    have hsize : (itemPhrase ⟨t, name⟩ {}).length ≤ n := by
      have hlength := (starts_item ht).length_eq .blank {}
      rw [hhead, List.length_cons] at hn
      omega
    rw [hhead, lay, List.cons_append]
    obtain ⟨e, he, hparse⟩ := yields_item ht hname hsize (.head margin)
      (s.after (word "except" g).chars) .blank _ _ _ hcolon (stops_colon s')
    have hcovered := covered_of hparse hcolon
    obtain ⟨first, more, heq, hopening, hgap⟩ := (starts_item ht).exists_cons
      (s.after (word "except" g).chars) .blank ((mark ":" {}).token s' :: mid)
    rw [heq] at hcovered ⊢
    have hflat : first.gap.Flat := hgap ▸ Gap.flat_blank
    exact ⟨_, _, denotesCaught_item he _, rfl, sees_opening hopening hflat more,
      caught_single hopening hflat.continuations hcovered rfl rfl⟩

/-! ## Clauses -/

/-- Two handlers with one name, whose parts are alike. -/
def agreeHandler (h h' : Handler Tree) : Bool :=
  h.name == h'.name && agreeOption Tree.alike h.exception h'.exception &&
    agreeList Tree.alike h.body h'.body

/-- Clauses are read as handlers and a final suite like the given ones. -/
def DenotesClauses (cs : List Clause) (handlers : List (Handler Tree)) (final : List Tree) : Prop :=
  ∃ hs fs, readClauses cs = .ok (hs, fs) ∧ agreeList agreeHandler handlers hs = true ∧
    agreeList Tree.alike final fs = true

theorem denotesClauses_except {items : List Caught} {stmts : List Stmt} {place : Span}
    {cs : List Clause} {handler : Handler Tree} {handlers : List (Handler Tree)} {final : List Tree}
    (hcaught : DenotesCaught items handler.exception handler.name)
    (hbody : DenotesSuite stmts handler.body) (h : DenotesClauses cs handlers final) :
    DenotesClauses (.except place items stmts :: cs) (handler :: handlers) final := by
  obtain ⟨u, hread, hexception⟩ := hcaught
  obtain ⟨us, hreads, halikes⟩ := hbody
  obtain ⟨hs, fs, hclauses, hhandlers, hfinal⟩ := h
  refine ⟨⟨place, u, handler.name, us⟩ :: hs, fs, ?_, ?_, hfinal⟩
  · simp only [readClauses, hread, hreads, hclauses, ok_bind]
    rfl
  · simp only [agreeList, agreeHandler, beq_self_eq_true, hexception, halikes, hhandlers,
      Bool.and_true]

theorem denotesClauses_finally {stmts : List Stmt} {final : List Tree}
    (h : DenotesSuite stmts final) : DenotesClauses [.finally stmts] [] final := by
  obtain ⟨us, hreads, halikes⟩ := h
  refine ⟨[], us, ?_, rfl, halikes⟩
  simp only [readClauses, hreads, ok_bind]
  rfl

/-- The lines of further clauses are read as handlers and a final suite. -/
abbrev ReadsClauses (ls : List Line) (handlers : List (Handler Tree)) (final : List Tree) : Prop :=
  ReadsFurther clausesFrom ls fun cs => DenotesClauses cs handlers final

/-- The final suite of a `try` statement, if it has one. -/
theorem readsClauses_final {final : List Tree} (h : ∀ t ∈ final, ReadsLines (lines t) t) :
    ReadsClauses (finalLines final).flatten [] final := by
  rcases final with _ | ⟨first, rest⟩
  · exact readsFurther_nil ⟨[], [], rfl, rfl, rfl⟩
      fun _ _ _ done _ _ hv => clausesFrom_done hv done
  · rw [finalLines, List.isEmpty_cons, if_neg Bool.false_ne_true, List.flatten_singleton]
    exact readsFurther_last (fun _ => rfl) (List.cons_ne_nil _ _) h
      fun _ _ _ _ _ _ _ _ _ done _ hstmts hsuite => ⟨_, denotesClauses_finally hstmts,
        clausesFrom_finally done rfl rfl rfl (sees_mark Gap.flat_empty) hsuite⟩

/-- A handler with further clauses behind it. -/
theorem readsClauses_handler {handler : Handler Tree} {handlers : List (Handler Tree)}
    {final : List Tree} {ls : List Line}
    (hexception : ∀ t ∈ handler.exception, t.IsExpression Faithful)
    (halone : handler.exception = none → handler.name = none)
    (hname : ∀ n ∈ handler.name, IsDotted n.toList) (hne : handler.body ≠ [])
    (hbody : ∀ t ∈ handler.body, ReadsLines (lines t) t) (h : ReadsClauses ls handlers final) :
    ReadsClauses (headedLines (handlerHead handler.exception handler.name)
      (handler.body.map draft) ++ ls) (handler :: handlers) final := by
  refine readsFurther_headed (fun _ => rfl) hne hbody h
    fun n margin suite s s' mid us stmts u done hn hstmts hlength hsuite => ?_
  obtain ⟨items, ts, hitems, hhead, hsees, hcaught⟩ :=
    caught_head hexception halone hname hn margin s s' (.line margin) mid
  refine ⟨.except ((word "except" (.line margin)).token s).span items stmts,
    fun cs hcs => denotesClauses_except hitems hstmts hcs, fun r hr => ?_⟩
  rw [hhead]
  refine clausesFrom_except rfl rfl (exceptClause_of rfl hsees hcaught hsuite) ?_ hr
  have htokens := congrArg List.length hhead
  simp only [List.length_append, List.length_cons] at htokens ⊢
  omega

/-- The clauses of a `try` statement are read one after another. -/
theorem readsClauses_handlers {handlers : List (Handler Tree)} {final : List Tree}
    (hexceptions : ∀ h ∈ handlers, ∀ t ∈ h.exception, t.IsExpression Faithful)
    (halone : ∀ h ∈ handlers, h.exception = none → h.name = none)
    (hnames : ∀ h ∈ handlers, h.body ≠ [] ∧ ∀ n ∈ h.name, IsDotted n.toList)
    (hbodies : ∀ h ∈ handlers, ∀ t ∈ h.body, ReadsLines (lines t) t)
    (hfinal : ∀ t ∈ final, ReadsLines (lines t) t) :
    ReadsClauses (handlers.flatMap (fun h => handlerLines (h.map draft)) ++
      (finalLines final).flatten) handlers final := by
  induction handlers with
  | nil => exact readsClauses_final hfinal
  | cons handler handlers ih =>
    rw [List.forall_mem_cons] at hexceptions halone hnames hbodies
    rw [List.flatMap_cons, List.append_assoc]
    exact readsClauses_handler hexceptions.1 halone.1 hnames.1.2 hnames.1.1 hbodies.1
      (ih hexceptions.2 halone.2 hnames.2 hbodies.2)

theorem denotes_tryStmt (span : Span) {stmts : List Stmt} {place : Span} {cs : List Clause}
    {body final : List Tree} {handlers : List (Handler Tree)} (hbody : DenotesSuite stmts body)
    (hclauses : DenotesClauses cs handlers final) :
    DenotesStmt (.tryStmt place stmts cs) (.mk span (.tryStmt body handlers final)) := by
  obtain ⟨us, hreads, halikes⟩ := hbody
  obtain ⟨hs, fs, hread, hhandlers, hfinal⟩ := hclauses
  refine ⟨.mk place (.tryStmt us hs fs), ?_, ?_⟩
  · simp only [Stmt.read, hreads, hread, ok_bind]
    rfl
  · rw [Tree.alike_mk]
    simp only [Node.agree, halikes, hfinal, Bool.true_and, Bool.and_true]
    exact hhandlers

/-- A `try` statement with its clauses. -/
theorem readsLines_tryStmt (span : Span) {body final : List Tree}
    {handlers : List (Handler Tree)} {ls : List Line} (hne : body ≠ [])
    (hbody : ∀ t ∈ body, ReadsLines (lines t) t) (h : ReadsClauses ls handlers final) :
    ReadsLines (headedLines (fun g => [word "try" g]) (body.map draft) ++ ls)
      (.mk span (.tryStmt body handlers final)) :=
  readsLines_further ⟨.word, "try", _, fun _ => rfl, by decide⟩ hne hbody h
    fun _ _ _ _ _ _ _ _ _ _ _ _ hstmts hcs hsuite hclauses =>
      ⟨_, denotes_tryStmt span hstmts hcs, statementLine_compound
        (compound?_try rfl (sees_mark Gap.flat_empty) hsuite
          ((congrFun clauses_eq _).trans hclauses))⟩

end Rendition.Python
