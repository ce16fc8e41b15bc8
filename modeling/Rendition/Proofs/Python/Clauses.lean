import Rendition.Proofs.Python.Headed

/-!
# Clauses are read back

A statement with several suites goes on with clauses, each with a head on a line of its own. They
are read one after another, and the last one in front of a line that goes on with no statement.

## Main definitions

* `Python.ReadsFurther`: Lines are read as the further clauses of a statement.

## Theorems

* `readsFurther_last`, `readsFurther_headed`: A clause that is the last one, and one that is not.
* `readsLines_further`: A statement with further clauses.
-/

namespace Rendition.Python

open Source Source.Lexeme

variable {α : Type} {parser : Phrases → SuiteParser → Nat → List α → Parser (List α)}
  {denotes denotes' : List α → Prop} {head : Phrase} {body : List Tree} {ls : List Line}

/-- Lines are read as further clauses of a statement, after those that were read, in front of a line
    that does not go on with it. -/
structure ReadsFurther (parser : Phrases → SuiteParser → Nat → List α → Parser (List α))
    (ls : List Line) (denotes : List α → Prop) : Prop where
  moves : ∀ line ∈ ls, Moves line.phrase
  read : ∀ {width n fuel : Nat}, 1 ≤ width → Bounded n fuel ls →
    ∀ (depth : Nat) (v : Token) (ts : List Token), v.Follows (width * depth) →
    ∀ s : Span, ∃ u us, lay s (below width depth ls) ++ v :: ts = u :: us ∧
      u.Under (width * depth) ∧ ∀ done, ∃ cs, denotes cs ∧
      parser (phrases n) (suiteAt (phrases n) fuel) (width * depth) done (u :: us) =
        some (done ++ cs, v :: ts)

/-- There may be no further clause. -/
theorem readsFurther_nil (hnil : denotes [])
    (hparser : ∀ (n margin : Nat) (suite : SuiteParser) (done : List α) (v : Token)
      (ts : List Token), v.Follows margin →
      parser (phrases n) suite margin done (v :: ts) = some (done, v :: ts)) :
    ReadsFurther parser [] denotes := by
  refine ⟨fun _ h => absurd h List.not_mem_nil, fun _ _ depth v ts hv s =>
    ⟨v, ts, rfl, hv.toUnder, fun done => ⟨[], hnil, ?_⟩⟩⟩
  rw [List.append_nil]
  exact hparser _ _ _ done v ts hv

/-- The keyword of a clause on a line of its own. -/
theorem under_keyword (text : String) (margin : Nat) (s : Span) :
    ((word text (.line margin)).token s).Under margin :=
  ⟨rfl, Nat.le_refl _, rfl⟩

section Headed

variable {keyword : String} {more : List Lexeme} (hhead : ∀ g, head g = word keyword g :: more)
  (hne : body ≠ []) (hbody : ∀ t ∈ body, ReadsLines (lines t) t)

include hhead hne hbody

/-- The last clause of a statement. -/
theorem readsFurther_last
    (hparser : ∀ (n margin : Nat) (suite : SuiteParser) (s s' : Span) (mid ts : List Token)
      (stmts : List Stmt) (v : Token) (done : List α), (head {}).length ≤ n →
      DenotesSuite stmts body →
      suite margin ((mark ":" {}).token s' :: mid) = some (([], stmts), v :: ts) →
      ∃ cs, denotes cs ∧ parser (phrases n) suite margin done
        (lay s (head (.line margin)) ++ (mark ":" {}).token s' :: mid) =
        some (done ++ cs, v :: ts)) :
    ReadsFurther parser (headedLines head (body.map draft)) denotes := by
  refine ⟨moves_headed ⟨_, _, _, hhead, rfl⟩ hne hbody,
    fun {width n fuel} hwidth hbound depth v ts hv s => ?_⟩
  obtain ⟨hlength, inner, rfl, hinner⟩ := hbound.head
  obtain ⟨s₁, s₂, s₃, hlay⟩ :=
    lay_below_headed width depth head (body.map draft) [] s (v :: ts)
  rw [List.append_nil, below_nil] at hlay
  obtain ⟨stmts, hstmts, hsuite⟩ := suite_statements hwidth hne hbody hinner hv.toUnder s₂ s₁ ts
  have hread := fun done =>
    hparser n (width * depth) _ s s₁ _ ts stmts v done hlength (denotes_suite hstmts) hsuite
  rw [hlay]
  rw [hhead, lay, List.cons_append] at hread ⊢
  exact ⟨_, _, rfl, under_keyword keyword _ s, hread⟩

/-- A clause with others behind it. -/
theorem readsFurther_headed (h : ReadsFurther parser ls denotes)
    (hparser : ∀ (n margin : Nat) (suite : SuiteParser) (s s' : Span) (mid us : List Token)
      (stmts : List Stmt) (u : Token) (done : List α), (head {}).length ≤ n →
      DenotesSuite stmts body → us.length < mid.length →
      suite margin ((mark ":" {}).token s' :: mid) = some (([], stmts), u :: us) → ∃ c,
      (∀ cs, denotes cs → denotes' (c :: cs)) ∧ ∀ r,
        parser (phrases n) suite margin (done ++ [c]) (u :: us) = some r →
        parser (phrases n) suite margin done
          (lay s (head (.line margin)) ++ (mark ":" {}).token s' :: mid) = some r) :
    ReadsFurther parser (headedLines head (body.map draft) ++ ls) denotes' := by
  refine ⟨List.forall_mem_append.mpr ⟨moves_headed ⟨_, _, _, hhead, rfl⟩ hne hbody, h.moves⟩,
    fun {width n fuel} hwidth hbound depth v ts hv s => ?_⟩
  obtain ⟨hlength, inner, rfl, hinner⟩ :=
    (hbound.sublist (List.sublist_append_left _ _)).head
  obtain ⟨s₁, s₂, s₃, hlay⟩ :=
    lay_below_headed width depth head (body.map draft) ls s (v :: ts)
  obtain ⟨u, us, hnext, hu, hmore⟩ := h.read hwidth
    (hbound.sublist (List.sublist_append_right _ _)) depth v ts hv s₃
  obtain ⟨stmts, hstmts, hsuite⟩ := suite_statements hwidth hne hbody hinner hu s₂ s₁ us
  have hread (done : List α) := hparser n (width * depth) _ s s₁ _ us stmts u done hlength
    (denotes_suite hstmts) (by simp only [List.length_append, List.length_cons]; omega) hsuite
  rw [hlay, hnext]
  rw [hhead, lay, List.cons_append] at hread ⊢
  refine ⟨_, _, rfl, under_keyword keyword _ s, fun done => ?_⟩
  obtain ⟨c, hc, hstep⟩ := hread done
  obtain ⟨cs, hcs, hrest⟩ := hmore (done ++ [c])
  rw [← List.append_cons] at hrest
  exact ⟨c :: cs, hc cs hcs, hstep _ hrest⟩

end Headed

/-- A statement with further clauses. -/
theorem readsLines_further {t : Tree} (hstarts : StartsWith startsStatement head) (hne : body ≠ [])
    (hbody : ∀ t ∈ body, ReadsLines (lines t) t) (h : ReadsFurther parser ls denotes)
    (hread : ∀ (n margin : Nat) (suite : SuiteParser) (s s' : Span) (g : Gap)
      (mid us vs : List Token) (stmts : List Stmt) (cs : List α), (head {}).length ≤ n →
      DenotesSuite stmts body → denotes cs →
      suite margin ((mark ":" {}).token s' :: mid) = some (([], stmts), us) →
      parser (phrases n) suite margin [] us = some (cs, vs) → ∃ stmt, DenotesStmt stmt t ∧
      statementLine (phrases n) suite margin (lay s (head g) ++ (mark ":" {}).token s' :: mid) =
        some ([stmt], vs)) :
    ReadsLines (headedLines head (body.map draft) ++ ls) t := by
  refine ⟨⟨_, _, rfl, hstarts.append _⟩, List.forall_mem_append.mpr
    ⟨moves_headed (hstarts.imp fun _ _ => rfl) hne hbody, h.moves⟩,
    fun {width n fuel} hwidth hbound depth s g v ts hv => ?_⟩
  obtain ⟨hlength, inner, rfl, hinner⟩ :=
    (hbound.sublist (List.sublist_append_left _ _)).head
  obtain ⟨s₁, s₂, s₃, hlay⟩ :=
    lay_page_headed width depth head (body.map draft) ls s g (v :: ts)
  obtain ⟨u, us, hnext, hu, hmore⟩ := h.read hwidth
    (hbound.sublist (List.sublist_append_right _ _)) depth v ts hv s₃
  obtain ⟨stmts, hstmts, hsuite⟩ := suite_statements hwidth hne hbody hinner hu s₂ s₁ us
  obtain ⟨cs, hcs, hclauses⟩ := hmore []
  rw [hlay, hnext]
  exact hread n _ _ s s₁ g _ _ _ stmts cs hlength (denotes_suite hstmts) hcs hsuite hclauses

end Rendition.Python
