import Rendition.Proofs.Python.Clauses

/-!
# Conditional statements are read back

A conditional statement that stands alone behind `else` is rendered as a further branch. The
branches are read one after another and nested again.

## Main definitions

* `Python.ReadsBranches`: Lines are read as the branches of a conditional statement.
* `Python.otherwiseLines`: The lines of the statements behind `else`.

## Theorems

* `readsBranches_otherwise`: What stands behind `else` is read back.
* `readsLines_ifStmt`, `readsBranches_elif`: A conditional statement is read back, as a statement
  and as a further branch.
-/

namespace Rendition.Python

open Source Source.Lexeme

/-- Branches are read as trees like the given ones. -/
def DenotesBranches (bs : List Branch) (orelse : List Tree) : Prop :=
  ∃ us, readBranches bs = .ok us ∧ agreeList Tree.alike orelse us = true

section Denotes

variable (span : Span) {place : Span} {e : Expr} {test : Tree} {stmts : List Stmt}
  {bs : List Branch} {body orelse : List Tree}

theorem denotes_ifStmt (htest : Denotes e test) (hbody : DenotesSuite stmts body)
    (horelse : DenotesBranches bs orelse) :
    DenotesStmt (.ifStmt place e stmts bs) (.mk span (.ifStmt test body orelse)) := by
  obtain ⟨u, hread, halike⟩ := htest
  obtain ⟨us, hreads, halikes⟩ := hbody
  obtain ⟨vs, hbranches, hagree⟩ := horelse
  refine ⟨.mk place (.ifStmt u us vs), ?_, ?_⟩
  · simp only [Stmt.read, hread, hreads, hbranches, ok_bind]
    rfl
  · rw [Tree.alike_mk]
    simp only [Node.agree, halike, halikes, hagree, Bool.and_true]

/-- A branch with a condition of its own is a conditional statement. -/
theorem denotes_elifBranch (htest : Denotes e test) (hbody : DenotesSuite stmts body)
    (horelse : DenotesBranches bs orelse) :
    DenotesBranches (.elifBranch place e stmts :: bs) [.mk span (.ifStmt test body orelse)] := by
  obtain ⟨u, hread, halike⟩ := htest
  obtain ⟨us, hreads, halikes⟩ := hbody
  obtain ⟨vs, hbranches, hagree⟩ := horelse
  refine ⟨[.mk place (.ifStmt u us vs)], ?_, ?_⟩
  · simp only [readBranches, hread, hreads, hbranches, ok_bind]
    rfl
  · simp only [agreeList, Tree.alike_mk, Node.agree, halike, halikes, hagree, Bool.and_true]

theorem denotes_elseBranch (h : DenotesSuite stmts body) :
    DenotesBranches [.elseBranch stmts] body := by
  obtain ⟨us, hreads, halikes⟩ := h
  refine ⟨us, ?_, halikes⟩
  simp only [readBranches, hreads]
  rfl

end Denotes

/-- The lines of further branches are read as what stands behind `else`. -/
abbrev ReadsBranches (ls : List Line) (orelse : List Tree) : Prop :=
  ReadsFurther branchesFrom ls fun bs => DenotesBranches bs orelse

theorem readsBranches_nil : ReadsBranches [] [] :=
  readsFurther_nil ⟨[], rfl, rfl⟩ fun _ _ _ done _ _ hv => branchesFrom_done hv done

/-- Statements behind the word `else`. -/
theorem readsBranches_else {orelse : List Tree} (hne : orelse ≠ [])
    (h : ∀ t ∈ orelse, ReadsLines (lines t) t) :
    ReadsBranches (headedLines (fun g => [word "else" g]) (orelse.map draft)) orelse :=
  readsFurther_last (fun _ => rfl) hne h
    fun _ _ _ _ _ _ _ _ _ done _ hstmts hsuite => ⟨_, denotes_elseBranch hstmts,
      branchesFrom_else done rfl rfl (sees_mark Gap.flat_empty) hsuite⟩

section Conditional

variable (span : Span) {test : Tree} {body orelse : List Tree} {ls : List Line}
  (htest : test.IsExpression Faithful) (hne : body ≠ [])
  (hbody : ∀ t ∈ body, ReadsLines (lines t) t) (h : ReadsBranches ls orelse)

include htest hne hbody h

/-- A conditional statement as a further branch. -/
theorem readsBranches_elif : ReadsBranches
    (headedLines (fun g => word "elif" g :: phrase test .blank) (body.map draft) ++ ls)
    [.mk span (.ifStmt test body orelse)] := by
  refine readsFurther_headed (fun _ => rfl) hne hbody h
    fun n margin suite s s' mid us stmts u done hn hstmts hlength hsuite => ?_
  obtain ⟨e, ts, he, hhead, hsees, hparse⟩ :=
    yields_condition htest "elif" hn margin s s' (.line margin) mid
  refine ⟨.elifBranch ((word "elif" (.line margin)).token s).span e stmts,
    fun bs hbs => denotes_elifBranch span he.read hstmts hbs, fun r hr => ?_⟩
  rw [hhead]
  refine branchesFrom_elif rfl rfl hsees hparse hsuite ?_ hr
  have htokens := congrArg List.length hhead
  simp only [List.length_append, List.length_cons] at htokens ⊢
  omega

/-- A conditional statement with its further branches. -/
theorem readsLines_ifStmt : ReadsLines
    (headedLines (fun g => word "if" g :: phrase test .blank) (body.map draft) ++ ls)
    (.mk span (.ifStmt test body orelse)) := by
  refine readsLines_further ⟨.word, "if", _, fun _ => rfl, by decide⟩ hne hbody h
    fun n margin suite s s' g mid us vs stmts bs hn hstmts hbs hsuite hbranches => ?_
  obtain ⟨e, ts, he, hhead, hsees, hparse⟩ := yields_condition htest "if" hn margin s s' g mid
  rw [hhead]
  exact ⟨_, denotes_ifStmt span he.read hstmts hbs,
    statementLine_compound
      (compound?_if rfl hsees hparse hsuite ((congrFun branches_eq _).trans hbranches))⟩

end Conditional

/-! ## What stands behind `else` -/

/-- The lines of the statements behind `else`. -/
def otherwiseLines (orelse : List Tree) : List Line :=
  match orelse with
  | [] => []
  | [single] => (branch single).getD (headedLines (fun g => [word "else" g]) [draft single])
  | orelse => headedLines (fun g => [word "else" g]) (orelse.map draft)

theorem conditionalLines_eq (keyword : String) (test : Tree) (body orelse : List Tree) :
    conditionalLines keyword (draft test) (body.map draft) (orelse.map draft) =
      headedLines (fun g => word keyword g :: phrase test .blank) (body.map draft) ++
        otherwiseLines orelse := by
  rcases orelse with _ | ⟨first, _ | ⟨second, rest⟩⟩
  · rfl
  · exact conditionalLines_single keyword (draft test) (body.map draft) first
  · rfl

/-- What stands behind `else` is read back, as a further branch where it is one. -/
theorem readsBranches_otherwise {orelse : List Tree}
    (h : ∀ t ∈ orelse, ReadsLines (lines t) t ∧ ∀ ls ∈ branch t, ReadsBranches ls [t]) :
    ReadsBranches (otherwiseLines orelse) orelse := by
  have helse (hne : orelse ≠ []) := readsBranches_else hne fun t ht => (h t ht).1
  rcases orelse with _ | ⟨first, _ | ⟨second, rest⟩⟩
  · exact readsBranches_nil
  · rw [otherwiseLines]
    rcases hbranch : branch first with _ | ls
    · exact helse (List.cons_ne_nil _ _)
    · exact (h first List.mem_cons_self).2 ls hbranch
  · exact helse (List.cons_ne_nil _ _)

end Rendition.Python
